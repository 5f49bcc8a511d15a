import HftSystem.MarketFeed
import HftSystem.RoundRobin

/-!
What the running system gets done. No step waits for another thread, so a schedule
with enough steps of every producer, and then enough of the manager thread, drains
the queues, also where slots have been overwritten on the way. Whether a slot can be
overwritten depends on the number of arrivals alone.
-/
namespace HftSystem

def ProducerState.phase {N : ℕ} : ProducerState N → ℕ
  | .idle => 0
  | .holding _ => 1
  | .written => 2

def ConsumerState.phase {N : ℕ} : ConsumerState N → ℕ
  | .idle => 0
  | .holding _ => 1
  | .passed => 2

theorem ProducerState.phase_le {N : ℕ} (p : ProducerState N) : p.phase ≤ 2 := by
  cases p <;> simp [phase]

theorem ConsumerState.phase_le {N : ℕ} (c : ConsumerState N) : c.phase ≤ 2 := by
  cases c <;> simp [phase]

/-! ### One queue under every schedule -/

namespace Channel

open LFQueue

variable {α : Type*} {N : ℕ} {xs : List α} {c : Channel α N}

/-- The steps that the producer has left, three for each item. -/
def toSend (c : Channel α N) : ℕ := 3 * c.pending.length - c.producer.phase

theorem pending_of_toSend (h : c.toSend = 0) : c.pending = [] := by
  have hphase := c.producer.phase_le
  unfold toSend at h
  exact List.eq_nil_of_length_eq_zero (by omega)

theorem ne_idle_of_isHolding (h : c.producer.isHolding = true) : c.producer ≠ .idle := by
  intro hidle
  rw [hidle] at h
  exact absurd h Bool.false_ne_true

variable [NeZero N]

theorem toSend_produce (c : Channel α N) : c.produce.toSend = c.toSend - 1 := by
  have hmove := produce_spec c
  generalize c.produce = c' at hmove
  unfold toSend
  cases hmove with
  | done hpending =>
    rw [hpending, List.length_nil]
    omega
  | fetch hpending hidle =>
    rw [hidle]
    rfl
  | fill hpending hslot =>
    rw [hslot]
    rfl
  | publish hpending hwritten =>
    rw [hpending, hwritten, List.length_cons]
    simp only [ProducerState.phase]
    omega

theorem toSend_consume (c : Channel α N) : c.consume.toSend = c.toSend := by
  have hmove := consume_spec c
  generalize c.consume = c' at hmove
  cases hmove <;> rfl

theorem produce_of_done (h : c.pending = []) : c.produce = c := by
  unfold produce
  rw [h]

/-- What holds under every schedule, also when slots are overwritten. -/
structure Served (xs : List α) (c : Channel α N) : Prop extends Inv xs c where
  filling : c.producer ≠ .idle → c.pending ≠ []
  fitting : xs.length ≤ N → Delivers xs c

theorem Served.start (default : α) (xs : List α) : Served xs (start default xs : Channel α N) where
  toInv := .start default xs
  filling h := absurd rfl h
  fitting _ := .start default xs

/-- Fewer items are published than arrive as long as the producer is at work. -/
theorem Served.size_lt (h : Served xs c) (hbusy : c.producer ≠ .idle) :
    c.queue.size < xs.length := by
  have hpending : 0 < c.pending.length := List.length_pos_iff.mpr (h.filling hbusy)
  have hitems := congrArg List.length h.items
  have hsize := h.size
  rw [List.length_append] at hitems
  change c.queue.numElements < xs.length
  omega

theorem Served.produce (h : Served xs c) : Served xs c.produce where
  toInv := h.toInv.produce
  filling := by
    have hmove := produce_spec c
    have hfilling := h.filling
    generalize c.produce = c' at hmove
    cases hmove with
    | done => exact hfilling
    | fetch hpending => exact fun _ => hpending ▸ List.cons_ne_nil _ _
    | fill hpending => exact fun _ => hpending ▸ List.cons_ne_nil _ _
    | publish => exact fun hbusy => absurd rfl hbusy
  fitting hfits := by
    refine (h.fitting hfits).produce (fun _ hholding => ?_)
    have hsize := h.size_lt (ne_idle_of_isHolding hholding)
    omega

theorem Served.consume (h : Served xs c) : Served xs c.consume where
  toInv := h.toInv.consume
  filling := by
    have hmove := consume_spec c
    have hfilling := h.filling
    generalize c.consume = c' at hmove
    cases hmove <;> exact hfilling
  fitting hfits := (h.fitting hfits).consume

/-- A drained queue has passed on as many items as arrived. -/
theorem Served.length_passed (h : Served xs c) (hpending : c.pending = [])
    (hempty : c.queue.size = 0) : c.passed.length = xs.length := by
  change c.queue.numElements = 0 at hempty
  have hidle : c.consumer = .idle := by
    by_contra hbusy
    exact h.nonempty hbusy hempty
  have hitems := h.items
  have hsize := h.size
  have hcount := h.passedCount
  rw [hpending, List.append_nil] at hitems
  rw [inHand_of_ne (by rw [hidle]; nofun)] at hcount
  rw [← hitems]
  omega

end Channel

/-! ### The whole system under every schedule -/

namespace MarketFeed

open Channel Transitions RoundRobin OrderBookManager

variable {k : ℕ} {cap : Fin k → ℕ} [∀ i, NeZero (cap i)] {M : ℕ}
variable {arrivals : Fin k → List MarketUpdate} {f : MarketFeed cap M}

/-- The manager thread holds a slot only of the queue it visits. -/
structure Serving (arrivals : Fin k → List MarketUpdate) (f : MarketFeed cap M) : Prop where
  served : ∀ i, Served (arrivals i) (f.channels i)
  visiting : ∀ i : Fin k, (f.channels i).consumer ≠ .idle → f.turn = i
  turn_le : f.turn ≤ k

theorem Serving.start (default : MarketUpdate) (arrivals : Fin k → List MarketUpdate)
    (o : OrderBookManager M) : Serving arrivals (start default arrivals o : MarketFeed cap M) where
  served i := .start default (arrivals i)
  visiting _ h := absurd rfl h
  turn_le := Nat.zero_le k

theorem consumer_produce {α : Type*} {N : ℕ} [NeZero N] (c : Channel α N) :
    c.produce.consumer = c.consumer := by
  have hmove := produce_spec c
  generalize c.produce = c' at hmove
  cases hmove <;> rfl

theorem Serving.produce (h : Serving arrivals f) (i : Fin k) :
    Serving arrivals { f with
      channels := Function.update f.channels i (f.channels i).produce } where
  served j := by
    change Served (arrivals j) (Function.update f.channels i (f.channels i).produce j)
    by_cases hji : j = i
    · subst hji
      rw [Function.update_self]
      exact (h.served j).produce
    · rw [Function.update_of_ne hji]
      exact h.served j
  visiting j := by
    change (Function.update f.channels i (f.channels i).produce j).consumer ≠ .idle → _
    by_cases hji : j = i
    · subst hji
      rw [Function.update_self, consumer_produce]
      exact h.visiting j
    · rw [Function.update_of_ne hji]
      exact h.visiting j
  turn_le := h.turn_le

variable [NeZero M]

theorem Serving.step_eq (h : Serving arrivals f) (a : Action k) :
    f.step a =
      match a with
      | .produce i => { f with channels := Function.update f.channels i (f.channels i).produce }
      | .consume => if h : f.turn < k then f.visit ⟨f.turn, h⟩ else { f with turn := 0 } := by
  unfold MarketFeed.step
  refine if_neg ?_
  rintro ⟨i, haborted⟩
  rw [(h.served i).running] at haborted
  exact absurd haborted Bool.false_ne_true

theorem Serving.visit (h : Serving arrivals f) {i : Fin k} (hi : f.turn = i) :
    Serving arrivals (f.visit i) where
  served j := by
    change Served (arrivals j) (Function.update f.channels i (f.channels i).consume j)
    by_cases hji : j = i
    · subst hji
      rw [Function.update_self]
      exact (h.served j).consume
    · rw [Function.update_of_ne hji]
      exact h.served j
  visiting j := by
    change (Function.update f.channels i (f.channels i).consume j).consumer ≠ .idle →
      (if (f.channels i).consume.consumer = .idle then f.turn + 1 else f.turn) = j
    by_cases hji : j = i
    · subst hji
      rw [Function.update_self]
      intro hbusy
      rw [if_neg hbusy, hi]
    · rw [Function.update_of_ne hji]
      intro hbusy
      have hj := h.visiting j hbusy
      exact absurd (Fin.ext (hj.symm.trans hi)) hji
  turn_le := by
    change (if (f.channels i).consume.consumer = .idle then f.turn + 1 else f.turn) ≤ k
    have hlt : f.turn < k := hi ▸ i.isLt
    split <;> omega

theorem Serving.step (h : Serving arrivals f) (a : Action k) : Serving arrivals (f.step a) := by
  rw [h.step_eq]
  cases a with
  | produce i => exact h.produce i
  | consume =>
    dsimp only
    split
    · exact h.visit rfl
    · exact ⟨h.served, fun i hbusy => absurd (h.visiting i hbusy) (by omega), Nat.zero_le k⟩

/-! ### The steps left -/

def sizes (f : MarketFeed cap M) (i : Fin k) : ℕ := (f.channels i).queue.size

/-- How far the manager thread is with the queue it visits. -/
def phase (f : MarketFeed cap M) : ℕ :=
  if h : f.turn < k then (f.channels ⟨f.turn, h⟩).consumer.phase else 0

/-- A bound on the steps that the manager thread needs for what is published: a visit has three. -/
def toPass (f : MarketFeed cap M) : ℕ := 3 * work f.turn f.sizes - f.phase

section Measure

omit [∀ i, NeZero (cap i)] [NeZero M]

variable {f' : MarketFeed cap M}

theorem phase_le (f : MarketFeed cap M) : f.phase ≤ 2 := by
  unfold phase
  split
  · exact ConsumerState.phase_le _
  · exact Nat.zero_le 2

theorem phase_eq {i : Fin k} (hi : f.turn = i) : f.phase = (f.channels i).consumer.phase := by
  have hlt : f.turn < k := hi ▸ i.isLt
  have heq : (⟨f.turn, hlt⟩ : Fin k) = i := Fin.ext hi
  unfold phase
  rw [dif_pos hlt, heq]

theorem work_ne_zero (h : f.toPass ≠ 0) : work f.turn f.sizes ≠ 0 := by
  intro hzero
  refine h ?_
  rw [toPass, hzero]
  omega

/-- The thread goes on to the next queue. -/
theorem toPass_lt_of_work (h : work f'.turn f'.sizes < work f.turn f.sizes) :
    f'.toPass < f.toPass := by
  have hphase := f.phase_le
  unfold toPass
  omega

/-- The thread goes on with the queue it visits. -/
theorem toPass_lt_of_phase (hturn : f'.turn = f.turn) (hsizes : f'.sizes = f.sizes)
    {i : Fin k} (hsize : f.sizes i ≠ 0) (hphase : f'.phase = f.phase + 1) :
    f'.toPass < f.toPass := by
  have hle := f.phase_le
  have hpos : 0 < work f.turn f.sizes := work_pos hsize
  unfold toPass
  rw [hturn, hsizes, hphase]
  omega

theorem size_of_toPass (h : f.toPass = 0) (i : Fin k) : f.sizes i = 0 := by
  have hphase := f.phase_le
  have hwork : work f.turn f.sizes = 0 := by
    unfold toPass at h
    omega
  exact size_eq_zero_of_work hwork i

theorem toPass_of_empty (h : ∀ i, f.sizes i = 0) : f.toPass = 0 := by
  by_contra hne
  obtain ⟨i, hi⟩ := exists_waiting (work_ne_zero hne)
  exact hi (h i)

end Measure

theorem sizes_visit (f : MarketFeed cap M) (i : Fin k) :
    (f.visit i).sizes = Function.update f.sizes i (f.channels i).consume.queue.size := by
  funext j
  change (Function.update f.channels i (f.channels i).consume j).queue.size = _
  by_cases hji : j = i
  · subst hji
    rw [Function.update_self, Function.update_self]
  · rw [Function.update_of_ne hji, Function.update_of_ne hji]
    rfl

/-- Every step of the manager thread counts until nothing is left. -/
theorem Serving.toPass_visit_lt (h : Serving arrivals f) {i : Fin k} (hi : f.turn = i)
    (hleft : f.toPass ≠ 0) : (f.visit i).toPass < f.toPass := by
  have hnonempty := (h.served i).nonempty
  have hphase := phase_eq hi
  have hwork := work_ne_zero hleft
  have hsizes := sizes_visit f i
  have hturn : (f.visit i).turn =
      if (f.channels i).consume.consumer = .idle then f.turn + 1 else f.turn := rfl
  have hphase' : (f.visit i).turn = i →
      (f.visit i).phase = (f.channels i).consume.consumer.phase := by
    intro hstays
    rw [phase_eq hstays]
    change (Function.update f.channels i (f.channels i).consume i).consumer.phase = _
    rw [Function.update_self]
  have hmove := consume_spec (f.channels i)
  generalize (f.channels i).consume = c' at hmove hsizes hturn hphase'
  cases hmove with
  | poll hidle hempty =>
    rw [if_pos hidle] at hturn
    have hsame : (f.visit i).sizes = f.sizes := hsizes.trans (Function.update_eq_self i f.sizes)
    apply toPass_lt_of_work
    rw [hturn, hsame, hi]
    exact work_pass_lt hempty (hi ▸ hwork)
  | fetch hidle hsize =>
    rw [if_neg (by nofun)] at hturn
    have hsame : (f.visit i).sizes = f.sizes := hsizes.trans (Function.update_eq_self i f.sizes)
    refine toPass_lt_of_phase hturn hsame hsize ?_
    rw [hphase' (hturn.trans hi), hphase, hidle]
    rfl
  | pass hslot =>
    rw [if_neg (by nofun)] at hturn
    have hsame : (f.visit i).sizes = f.sizes := hsizes.trans (Function.update_eq_self i f.sizes)
    refine toPass_lt_of_phase hturn hsame (hnonempty (by rw [hslot]; nofun)) ?_
    rw [hphase' (hturn.trans hi), hphase, hslot]
    rfl
  | release hpassed hsize =>
    rw [if_pos rfl] at hturn
    apply toPass_lt_of_work
    rw [hturn, hsizes, hi]
    exact work_serve_lt hsize
  | abort hpassed hempty => exact absurd hempty (hnonempty (by rw [hpassed]; nofun))

theorem Serving.toPass_consume_lt (h : Serving arrivals f) (hleft : f.toPass ≠ 0) :
    (f.step .consume).toPass < f.toPass := by
  rw [h.step_eq]
  dsimp only
  split
  · exact h.toPass_visit_lt rfl hleft
  · have hturn : f.turn = k := by
      have hle := h.turn_le
      omega
    have hwork := work_ne_zero hleft
    apply toPass_lt_of_work
    rw [hturn] at hwork ⊢
    exact work_wrap_lt hwork

theorem size_consume_le {α : Type*} {N : ℕ} [NeZero N] (c : Channel α N) :
    c.consume.queue.size ≤ c.queue.size := by
  have hmove := consume_spec c
  generalize c.consume = c' at hmove
  cases hmove with
  | release => exact Nat.sub_le _ 1
  | _ => exact Nat.le_refl _

theorem Serving.toPass_consume_le (h : Serving arrivals f) :
    (f.step .consume).toPass ≤ f.toPass := by
  by_cases hleft : f.toPass = 0
  · rw [hleft]
    refine (toPass_of_empty (fun i => ?_)).le
    have hempty := size_of_toPass hleft
    rw [h.step_eq]
    dsimp only
    split
    · rw [sizes_visit]
      by_cases hi : i = ⟨f.turn, ‹_›⟩
      · subst hi
        rw [Function.update_self]
        exact Nat.le_zero.mp ((size_consume_le _).trans (hempty _).le)
      · rw [Function.update_of_ne hi]
        exact hempty i
    · exact hempty i
  · exact (h.toPass_consume_lt hleft).le

/-! ### Every fair schedule drains the queues -/

theorem Serving.toSend_step_le (h : Serving arrivals f) (i : Fin k) (a : Action k) :
    ((f.step a).channels i).toSend ≤ (f.channels i).toSend := by
  rw [h.step_eq]
  cases a with
  | produce j =>
    change (Function.update f.channels j (f.channels j).produce i).toSend ≤ _
    by_cases hij : i = j
    · subst hij
      rw [Function.update_self, toSend_produce]
      exact Nat.sub_le _ 1
    · rw [Function.update_of_ne hij]
  | consume =>
    dsimp only
    split
    · change (Function.update f.channels _ (f.channels _).consume i).toSend ≤ _
      by_cases hi : i = ⟨f.turn, ‹_›⟩
      · subst hi
        rw [Function.update_self, toSend_consume]
      · rw [Function.update_of_ne hi]
    · exact Nat.le_refl _

theorem Serving.toSend_produce_lt (h : Serving arrivals f) (i : Fin k)
    (hleft : (f.channels i).toSend ≠ 0) :
    ((f.step (.produce i)).channels i).toSend < (f.channels i).toSend := by
  rw [h.step_eq]
  change (Function.update f.channels i (f.channels i).produce i).toSend < _
  rw [Function.update_self, toSend_produce]
  omega

/-- Enough steps of every producer publish everything, whatever stands between them. -/
theorem Serving.pending_run (h : Serving arrivals f) (as : List (Action k))
    (hproduce : ∀ i, (f.channels i).toSend ≤ as.count (.produce i)) (i : Fin k) :
    ((as.foldl MarketFeed.step f).channels i).pending = [] := by
  apply pending_of_toSend
  have hle := foldl_measure (P := Serving arrivals) (· == .produce i)
    (fun f : MarketFeed cap M => (f.channels i).toSend)
    (fun _ a h => h.step a) (fun _ a h => h.toSend_step_le i a)
    (fun f a h ha hleft => by
      rw [eq_of_beq ha]
      exact h.toSend_produce_lt i hleft) h as
  have hcount := hproduce i
  rw [List.count] at hcount
  omega

structure Sent (arrivals : Fin k → List MarketUpdate) (f : MarketFeed cap M) : Prop extends
    Serving arrivals f where
  pending : ∀ i, (f.channels i).pending = []

theorem Sent.produce_eq (h : Sent arrivals f) (i : Fin k) : f.step (.produce i) = f := by
  rw [h.step_eq]
  dsimp only
  rw [produce_of_done (h.pending i), Function.update_eq_self]

theorem Sent.step (h : Sent arrivals f) (a : Action k) : Sent arrivals (f.step a) where
  toServing := h.toServing.step a
  pending i := by
    have hle := h.toSend_step_le i a
    have hzero : (f.channels i).toSend = 0 := by
      rw [toSend, h.pending i, List.length_nil, Nat.mul_zero, Nat.zero_sub]
    exact pending_of_toSend (Nat.le_zero.mp (hzero ▸ hle))

theorem Sent.drained_run (h : Sent arrivals f) (as : List (Action k))
    (hconsume : f.toPass ≤ as.count .consume) : (as.foldl MarketFeed.step f).Drained := by
  have hle := foldl_measure (P := Sent arrivals) (· == .consume)
    (toPass : MarketFeed cap M → ℕ) (fun _ a h => h.step a)
    (fun f a h => by
      cases a with
      | produce i => rw [h.produce_eq]
      | consume => exact h.toPass_consume_le)
    (fun f a h ha hleft => by
      rw [eq_of_beq ha]
      exact h.toPass_consume_lt hleft) h as
  have hsent : Sent arrivals (as.foldl MarketFeed.step f) :=
    foldl_preserves (fun _ a h => h.step a) h as
  rw [List.count] at hconsume
  have hzero : (as.foldl MarketFeed.step f).toPass = 0 := by omega
  exact fun i => ⟨hsent.pending i, size_of_toPass hzero i⟩

omit [NeZero M] in
theorem Serving.toPass_le (h : Serving arrivals f) :
    f.toPass ≤ 3 * ((2 * k + 1) * ∑ i, (arrivals i).length) := by
  have hsizes : ∑ i, f.sizes i ≤ ∑ i, (arrivals i).length := by
    apply Finset.sum_le_sum
    intro i _
    have hitems := congrArg List.length (h.served i).items
    have hsize := (h.served i).size
    rw [List.length_append] at hitems
    change (f.channels i).queue.numElements ≤ _
    omega
  calc f.toPass ≤ 3 * work f.turn f.sizes := Nat.sub_le _ _
    _ ≤ 3 * ((2 * k + 1) * ∑ i, f.sizes i) := Nat.mul_le_mul_left 3 (work_le h.turn_le _)
    _ ≤ _ := Nat.mul_le_mul_left 3 (Nat.mul_le_mul_left _ hsizes)

/-- Three steps of a producer for each of its updates, in any order and with any steps in between,
and then enough steps of the manager thread: every queue is drained and has passed on as many
updates as arrived, and those of a queue with no more arrivals than slots are the arrivals. -/
theorem drained_of_fair (default : MarketUpdate) (arrivals : Fin k → List MarketUpdate)
    (o : OrderBookManager M) (as bs : List (Action k))
    (hproduce : ∀ i, 3 * (arrivals i).length ≤ as.count (.produce i))
    (hconsume : 3 * ((2 * k + 1) * ∑ i, (arrivals i).length) ≤ bs.count .consume) :
    let f := (as ++ bs).foldl step (start default arrivals o : MarketFeed cap M)
    f.Drained ∧ (∀ i, (f.channels i).passed.length = (arrivals i).length) ∧
      ∀ i, (arrivals i).length ≤ cap i → (f.channels i).passed = arrivals i := by
  intro f
  have hstart : Serving arrivals (start default arrivals o : MarketFeed cap M) :=
    .start default arrivals o
  have hmid : Serving arrivals (as.foldl step (start default arrivals o : MarketFeed cap M)) :=
    foldl_preserves (fun _ a h => h.step a) hstart as
  have hsent : Sent arrivals (as.foldl step (start default arrivals o : MarketFeed cap M)) :=
    ⟨hmid, hstart.pending_run as hproduce⟩
  have hrun : f = _ := List.foldl_append
  have hdrained : f.Drained := by
    rw [hrun]
    exact hsent.drained_run bs (hmid.toPass_le.trans hconsume)
  have hserving : Serving arrivals f := foldl_preserves (fun _ a h => h.step a) hstart (as ++ bs)
  refine ⟨hdrained, fun i => ?_, fun i hfits => ?_⟩
  · exact (hserving.served i).length_passed (hdrained i).1 (hdrained i).2
  · exact ((hserving.served i).fitting hfits).passed_eq (hdrained i).1 (hdrained i).2

/-- Two producers take turns with the manager thread. -/
def producing (i j : Fin 2) : List (Action 2) :=
  (List.replicate 6 [.produce i, .consume, .produce j]).flatten

def consuming : List (Action 2) := List.replicate 45 .consume

/-- The second queue has one slot for two updates. Nothing is lost in the first. -/
theorem drained_of_fair_two_queues :
    (((producing 1 0 ++ consuming).foldl step (start (.new 0 .invalid 0 0 0 0 0) twoArrivals
      (registered [7, 9]) : MarketFeed (fun _ => 1) 4)).channels 0).passed = twoArrivals 0 :=
  (drained_of_fair (.new 0 .invalid 0 0 0 0 0) twoArrivals (registered [7, 9]) (producing 1 0)
    consuming (by decide +kernel) (by decide +kernel)).2.2 0 (by decide)

/-! ### When every schedule leaves room -/

theorem released_produce {α : Type*} {N : ℕ} [NeZero N] (c : Channel α N) :
    c.produce.released = c.released := by
  have hmove := produce_spec c
  generalize c.produce = c' at hmove
  cases hmove <;> rfl

/-- The producer alone: each of its steps counts, and nothing is released. -/
theorem Serving.replicate_produce (h : Serving arrivals f) (i : Fin k) (n : ℕ) :
    let c := ((List.replicate n (.produce i)).foldl MarketFeed.step f).channels i
    c.toSend = (f.channels i).toSend - n ∧ c.released = (f.channels i).released := by
  induction n generalizing f with
  | zero => exact ⟨rfl, rfl⟩
  | succ n ih =>
    have hstep : (f.step (.produce i)).channels i = (f.channels i).produce := by
      rw [h.step_eq]
      exact Function.update_self _ _ _
    obtain ⟨hsend, hreleased⟩ := ih (h.step (.produce i))
    rw [hstep] at hsend hreleased
    rw [toSend_produce] at hsend
    rw [released_produce] at hreleased
    rw [List.replicate_succ, List.foldl_cons]
    exact ⟨by omega, hreleased⟩

/-- No slot is written while its queue is full, whatever the schedule, exactly if no queue has more
arrivals than slots. -/
theorem writesBelowCapacity_iff (default : MarketUpdate) (arrivals : Fin k → List MarketUpdate)
    (o : OrderBookManager M) :
    (∀ schedule, StepsMeet step WritesBelowCapacity
      (start default arrivals o : MarketFeed cap M) schedule) ↔
        ∀ i, (arrivals i).length ≤ cap i := by
  have hstart : Serving arrivals (start default arrivals o : MarketFeed cap M) :=
    .start default arrivals o
  constructor
  · intro hroom i
    by_contra hmany
    -- the producer fills the ring before the manager thread takes its first step
    have hlast := (hroom (List.replicate (3 * cap i + 1) (.produce i) ++ [.produce i])).last
    obtain ⟨hsend, hreleased⟩ := hstart.replicate_produce i (3 * cap i + 1)
    have hserved := (foldl_preserves (fun _ a h => h.step a) hstart
      (List.replicate (3 * cap i + 1) (.produce i)) : Serving arrivals _).served i
    generalize (List.replicate (3 * cap i + 1) (.produce i)).foldl MarketFeed.step
      (start default arrivals o : MarketFeed cap M) = f at hlast hsend hreleased hserved
    change (f.channels i).toSend = 3 * (arrivals i).length - 0 - (3 * cap i + 1) at hsend
    change (f.channels i).released = 0 at hreleased
    have hitems := congrArg List.length hserved.items
    have hsize := hserved.size
    have hphase := (f.channels i).producer.phase_le
    rw [List.length_append] at hitems
    rw [toSend] at hsend
    have hholding : (f.channels i).producer.isHolding = true := by
      cases hproducer : (f.channels i).producer with
      | holding => rfl
      | idle =>
        rw [hproducer] at hsend
        simp only [ProducerState.phase] at hsend
        omega
      | written =>
        rw [hproducer] at hsend
        simp only [ProducerState.phase] at hsend
        omega
    have hlt : (f.channels i).queue.numElements < cap i := hlast hholding
    omega
  · intro hfits schedule
    refine stepsMeet_of_invariant (P := Serving arrivals) (fun _ a h => h.step a) ?_ hstart schedule
    intro f a h
    cases a with
    | produce i =>
      intro hholding
      exact ((h.served i).size_lt (ne_idle_of_isHolding hholding)).trans_le (hfits i)
    | consume => trivial

theorem writesBelowCapacity_iff_two_queues :
    ¬ ∀ schedule, StepsMeet step WritesBelowCapacity (start (.new 0 .invalid 0 0 0 0 0) twoArrivals
      (registered [7, 9]) : MarketFeed (fun _ => 1) 4) schedule :=
  (writesBelowCapacity_iff (.new 0 .invalid 0 0 0 0 0) twoArrivals (registered [7, 9])).not.mpr
    (by decide)

/-! ### One queue -/

section OneQueue

variable {N : ℕ} [NeZero N] {o : OrderBookManager M} {f : MarketFeed (fun _ : Fin 1 => N) M}

/-- The manager has seen what the queue has delivered, in the same order. -/
structure Recorded (o : OrderBookManager M) (f : MarketFeed (fun _ : Fin 1 => N) M) : Prop where
  manager : f.manager = f.history.foldl passUpdateToOrderbook o
  history : f.history = (f.channels 0).passed

theorem Recorded.start (default : MarketUpdate) (arrivals : Fin 1 → List MarketUpdate)
    (o : OrderBookManager M) :
    Recorded o (start default arrivals o : MarketFeed (fun _ : Fin 1 => N) M) where
  manager := rfl
  history := rfl

theorem Recorded.step (h : Recorded o f) (a : Action 1) : Recorded o (f.step a) := by
  unfold MarketFeed.step
  split
  · exact h
  cases a with
  | produce i =>
    obtain rfl := Subsingleton.elim i 0
    refine ⟨h.manager, ?_⟩
    dsimp only
    rw [Function.update_self, produce_passed, h.history]
  | consume =>
    dsimp only
    split
    · rename_i hturn
      obtain hzero : (⟨f.turn, hturn⟩ : Fin 1) = 0 := Subsingleton.elim _ _
      rw [hzero]
      refine ⟨?_, ?_⟩
      · unfold visit
        dsimp only
        rw [List.foldl_append, ← h.manager]
      · unfold visit
        dsimp only
        rw [Function.update_self, consume_passed, h.history]
    · exact ⟨h.manager, h.history⟩

theorem Recorded.run (h : Recorded o f) (schedule : List (Action 1)) :
    Recorded o (schedule.foldl MarketFeed.step f) :=
  foldl_preserves (fun _ a h => h.step a) h schedule

end OneQueue

end MarketFeed

end HftSystem
