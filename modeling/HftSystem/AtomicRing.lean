import HftSystem.LockFreeQueue
import Mathlib.Order.Bounds.Basic

/-!
The ring between its two threads with every access to a shared variable as a step of
its own. `updateWriteIndex` stores the index and then counts the item up;
`updateReadIndex` stores the index, checks the count and then counts the item down;
`getNextToRead` loads the count before the index. Each index is written by one thread
only, so its load and its store are one step.

The calls of `Channel` that take one step there are simulated by the accesses here,
whatever the other thread does between them.
-/
namespace HftSystem

namespace LFQueue

variable {α : Type*} {N : ℕ} [NeZero N]

def storeWriteIndex (q : LFQueue α N) : LFQueue α N :=
  { q with nextWriteIndex := ringSlot N (q.nextWriteIndex.val + 1) }

def storeReadIndex (q : LFQueue α N) : LFQueue α N :=
  { q with nextReadIndex := ringSlot N (q.nextReadIndex.val + 1) }

def countUp (q : LFQueue α N) : LFQueue α N := { q with numElements := q.numElements + 1 }

def countDown (q : LFQueue α N) : LFQueue α N := { q with numElements := q.numElements - 1 }

theorem updateWriteIndex_eq (q : LFQueue α N) :
    q.updateWriteIndex = q.storeWriteIndex.countUp := rfl

theorem updateReadIndex_eq (q : LFQueue α N) :
    q.updateReadIndex =
      if q.storeReadIndex.numElements = 0 then none else some q.storeReadIndex.countDown := rfl

end LFQueue

namespace AtomicRing

inductive Producer (N : ℕ) where
  | idle
  | holding (slot : Fin N)
  | written
  | indexed
deriving DecidableEq

inductive Consumer (N : ℕ) where
  | idle
  | seen
  | holding (slot : Fin N)
  | passed (slot : Fin N)
  | indexed
  | checked
deriving DecidableEq

/-- How far the write index is ahead of the items published. -/
def Producer.ahead {N : ℕ} : Producer N → ℕ
  | .indexed => 1
  | _ => 0

/-- How far the read index is ahead of the items released. -/
def Consumer.ahead {N : ℕ} : Consumer N → ℕ
  | .indexed => 1
  | .checked => 1
  | _ => 0

/-- The slot that `getNextToRead` has offered, until `updateReadIndex` is called. -/
def Consumer.offered {N : ℕ} : Consumer N → Option (Fin N)
  | .holding slot => some slot
  | .passed slot => some slot
  | _ => none

end AtomicRing

/-- The fields are those of `Channel`. -/
structure AtomicRing (α : Type*) (N : ℕ) where
  queue : LFQueue α N
  pending : List α
  producer : AtomicRing.Producer N := .idle
  consumer : AtomicRing.Consumer N := .idle
  sent : List α := []
  passed : List α := []
  released : ℕ := 0
  aborted : Bool := false

namespace AtomicRing

open LFQueue Transitions

variable {α : Type*} {N : ℕ} [NeZero N]

def start (default : α) (xs : List α) : AtomicRing α N where
  queue := .new default
  pending := xs

def produce (c : AtomicRing α N) : AtomicRing α N :=
  match c.pending with
  | [] => c
  | x :: rest =>
    match c.producer with
    | .idle => { c with producer := .holding c.queue.getNextToWriteTo }
    | .holding slot => { c with queue := c.queue.write slot x, producer := .written }
    | .written => { c with queue := c.queue.storeWriteIndex, producer := .indexed }
    | .indexed =>
      { c with queue := c.queue.countUp, producer := .idle, pending := rest
               sent := c.sent ++ [x] }

def consume (c : AtomicRing α N) : AtomicRing α N :=
  match c.consumer with
  | .idle => if c.queue.size = 0 then c else { c with consumer := .seen }
  | .seen => { c with consumer := .holding c.queue.nextReadIndex }
  | .holding slot => { c with consumer := .passed slot, passed := c.passed ++ [c.queue.store slot] }
  | .passed _ => { c with queue := c.queue.storeReadIndex, consumer := .indexed }
  | .indexed =>
    if c.queue.numElements = 0 then { c with aborted := true } else { c with consumer := .checked }
  | .checked =>
    { c with queue := c.queue.countDown, consumer := .idle, released := c.released + 1 }

def step (c : AtomicRing α N) (t : Thread) : AtomicRing α N :=
  if c.aborted then c
  else
    match t with
    | .producer => c.produce
    | .consumer => c.consume

theorem step_of_running {c : AtomicRing α N} (h : c.aborted = false) (t : Thread) :
    c.step t =
      match t with
      | .producer => c.produce
      | .consumer => c.consume := by
  unfold step
  rw [h, if_neg Bool.false_ne_true]

/-- Every way a step of the producer can end. -/
inductive ProducerMove (c : AtomicRing α N) : AtomicRing α N → Prop
  | done (hpending : c.pending = []) : ProducerMove c c
  | fetch {x : α} {rest : List α} (hpending : c.pending = x :: rest) (hidle : c.producer = .idle) :
      ProducerMove c { c with producer := .holding c.queue.nextWriteIndex }
  | fill {x : α} {rest : List α} {slot : Fin N} (hpending : c.pending = x :: rest)
      (hslot : c.producer = .holding slot) :
      ProducerMove c { c with queue := c.queue.write slot x, producer := .written }
  | index {x : α} {rest : List α} (hpending : c.pending = x :: rest)
      (hwritten : c.producer = .written) :
      ProducerMove c { c with queue := c.queue.storeWriteIndex, producer := .indexed }
  | publish {x : α} {rest : List α} (hpending : c.pending = x :: rest)
      (hindexed : c.producer = .indexed) :
      ProducerMove c { c with
        queue := c.queue.countUp, producer := .idle, pending := rest, sent := c.sent ++ [x] }

theorem produce_spec (c : AtomicRing α N) : ProducerMove c c.produce := by
  unfold produce
  split
  · exact .done ‹_›
  · rename_i hpending
    split
    · exact .fetch hpending ‹_›
    · exact .fill hpending ‹_›
    · exact .index hpending ‹_›
    · exact .publish hpending ‹_›

/-- Every way a step of the consumer can end. -/
inductive ConsumerMove (c : AtomicRing α N) : AtomicRing α N → Prop
  | poll (hidle : c.consumer = .idle) (hempty : c.queue.numElements = 0) : ConsumerMove c c
  | see (hidle : c.consumer = .idle) (hsize : c.queue.numElements ≠ 0) :
      ConsumerMove c { c with consumer := .seen }
  | fetch (hseen : c.consumer = .seen) :
      ConsumerMove c { c with consumer := .holding c.queue.nextReadIndex }
  | pass {slot : Fin N} (hslot : c.consumer = .holding slot) :
      ConsumerMove c { c with
        consumer := .passed slot, passed := c.passed ++ [c.queue.store slot] }
  | index {slot : Fin N} (hslot : c.consumer = .passed slot) :
      ConsumerMove c { c with queue := c.queue.storeReadIndex, consumer := .indexed }
  | check (hindexed : c.consumer = .indexed) (hsize : c.queue.numElements ≠ 0) :
      ConsumerMove c { c with consumer := .checked }
  | abort (hindexed : c.consumer = .indexed) (hempty : c.queue.numElements = 0) :
      ConsumerMove c { c with aborted := true }
  | release (hchecked : c.consumer = .checked) :
      ConsumerMove c { c with
        queue := c.queue.countDown, consumer := .idle, released := c.released + 1 }

theorem consume_spec (c : AtomicRing α N) : ConsumerMove c c.consume := by
  unfold consume
  split
  · rename_i hidle
    split
    · exact .poll hidle ‹_›
    · exact .see hidle ‹_›
  · exact .fetch ‹_›
  · exact .pass ‹_›
  · exact .index ‹_›
  · rename_i hindexed
    split
    · exact .abort hindexed ‹_›
    · exact .check hindexed ‹_›
  · exact .release ‹_›

/-! ### Indices -/

/-- What each thread knows of its own index, and what it holds. -/
structure Inv (c : AtomicRing α N) : Prop where
  writeIndex : c.queue.nextWriteIndex = ringSlot N (c.sent.length + c.producer.ahead)
  readIndex : c.queue.nextReadIndex = ringSlot N (c.released + c.consumer.ahead)
  holdsWrite : ∀ slot, c.producer = .holding slot → slot = ringSlot N c.sent.length
  holdsRead : ∀ slot, c.consumer.offered = some slot → slot = ringSlot N c.released
  nonempty : c.consumer ≠ .idle → c.queue.numElements ≠ 0
  running : c.aborted = false

theorem Inv.start (default : α) (xs : List α) : Inv (start default xs : AtomicRing α N) where
  writeIndex := rfl
  readIndex := rfl
  holdsWrite _ h := nomatch h
  holdsRead _ h := nomatch h
  nonempty h := absurd rfl h
  running := rfl

variable {c : AtomicRing α N}

theorem Inv.produce (h : Inv c) : Inv c.produce := by
  have hindex := h.writeIndex
  have hmove := produce_spec c
  generalize c.produce = c' at hmove
  cases hmove with
  | done => exact h
  | fetch hpending hidle =>
    rw [hidle] at hindex
    refine { h with writeIndex := hindex, holdsWrite := ?_ }
    rintro slot ⟨⟩
    exact hindex
  | fill hpending hslot =>
    rw [hslot] at hindex
    exact { h with writeIndex := hindex, holdsWrite := nofun }
  | index hpending hwritten =>
    rw [hwritten] at hindex
    refine { h with writeIndex := ?_, holdsWrite := nofun }
    change ringSlot N (c.queue.nextWriteIndex.val + 1) = ringSlot N (c.sent.length + 1)
    rw [hindex]
    exact ringSlot_succ _
  | @publish x rest hpending hindexed =>
    rw [hindexed] at hindex
    refine { h with
      writeIndex := ?_, holdsWrite := nofun, nonempty := fun _ => Nat.succ_ne_zero _ }
    change c.queue.nextWriteIndex = ringSlot N ((c.sent ++ [x]).length + 0)
    rw [hindex, List.length_append]
    rfl

theorem Inv.consume (h : Inv c) : Inv c.consume := by
  have hindex := h.readIndex
  have hholds := h.holdsRead
  have hnonempty := h.nonempty
  have hmove := consume_spec c
  generalize c.consume = c' at hmove
  cases hmove with
  | poll => exact h
  | see hidle hsize =>
    rw [hidle] at hindex
    exact { h with readIndex := hindex, holdsRead := nofun, nonempty := fun _ => hsize }
  | fetch hseen =>
    rw [hseen] at hindex hnonempty
    refine { h with readIndex := hindex, holdsRead := ?_, nonempty := fun _ => hnonempty nofun }
    rintro slot ⟨⟩
    exact hindex
  | pass hslot =>
    rw [hslot] at hindex hholds hnonempty
    exact { h with readIndex := hindex, holdsRead := hholds, nonempty := fun _ => hnonempty nofun }
  | index hslot =>
    rw [hslot] at hindex hnonempty
    refine { h with readIndex := ?_, holdsRead := nofun, nonempty := fun _ => hnonempty nofun }
    change ringSlot N (c.queue.nextReadIndex.val + 1) = ringSlot N (c.released + 1)
    rw [hindex]
    exact ringSlot_succ _
  | check hindexed hsize =>
    rw [hindexed] at hindex
    exact { h with readIndex := hindex, holdsRead := nofun, nonempty := fun _ => hsize }
  | abort hindexed hempty =>
    rw [hindexed] at hnonempty
    exact absurd hempty (hnonempty nofun)
  | release hchecked =>
    rw [hchecked] at hindex
    exact { h with
      readIndex := hindex, holdsRead := nofun, nonempty := fun hne => absurd rfl hne }

theorem Inv.step (h : Inv c) (t : Thread) : Inv (c.step t) := by
  rw [step_of_running h.running]
  cases t with
  | producer => exact h.produce
  | consumer => exact h.consume

/-! ### The simulation -/

/-- The state between calls: a call is made at its last access, except that
`getNextToRead` is made when it loads the count. -/
def view (c : AtomicRing α N) : Channel α N where
  queue := { c.queue with
    nextWriteIndex := ringSlot N c.sent.length, nextReadIndex := ringSlot N c.released }
  pending := c.pending
  producer :=
    match c.producer with
    | .idle => .idle
    | .holding slot => .holding slot
    | .written => .written
    | .indexed => .written
  consumer :=
    match c.consumer with
    | .idle => .idle
    | .seen => .holding (ringSlot N c.released)
    | .holding slot => .holding slot
    | .passed _ => .passed
    | .indexed => .passed
    | .checked => .passed
  sent := c.sent
  passed := c.passed
  released := c.released
  aborted := c.aborted

theorem Inv.view_produce (h : Inv c) :
    view c.produce = view c ∨ view c.produce = (view c).produce := by
  have hindex := h.writeIndex
  have hmove := produce_spec c
  generalize c.produce = c' at hmove
  cases hmove with
  | done => exact .inl rfl
  | fetch hpending hidle =>
    rw [hidle] at hindex
    right
    simp only [Channel.produce, view, hpending, hidle, getNextToWriteTo, hindex]
    rfl
  | fill hpending hslot =>
    right
    simp only [Channel.produce, view, hpending, hslot]
    rfl
  | index hpending hwritten =>
    left
    simp only [view, hwritten]
    rfl
  | publish hpending hindexed =>
    right
    simp only [Channel.produce, view, hpending, hindexed, updateWriteIndex_eq, storeWriteIndex,
      countUp, ringSlot_succ, List.length_append, List.length_singleton]

theorem Inv.view_consume (h : Inv c) :
    view c.consume = view c ∨ view c.consume = (view c).consume := by
  have hindex := h.readIndex
  have hnonempty := h.nonempty
  have hmove := consume_spec c
  generalize c.consume = c' at hmove
  cases hmove with
  | poll => exact .inl rfl
  | see hidle hsize =>
    have hconsumer : (view c).consumer = .idle := by simp only [view, hidle]
    have hread : (view c).queue.getNextToRead = some (ringSlot N c.released) := if_neg hsize
    right
    simp only [Channel.consume, hconsumer, hread]
    rfl
  | fetch hseen =>
    -- nothing has moved the read index since the count was loaded
    rw [hseen] at hindex
    left
    simp only [view, hseen, hindex]
    rfl
  | pass hslot =>
    right
    simp only [Channel.consume, view, hslot]
  | index hslot =>
    left
    simp only [view, hslot]
    rfl
  | check hindexed hsize =>
    left
    simp only [view, hindexed]
  | abort hindexed hempty =>
    rw [hindexed] at hnonempty
    exact absurd hempty (hnonempty nofun)
  | release hchecked =>
    rw [hchecked] at hnonempty
    have hconsumer : (view c).consumer = .passed := by simp only [view, hchecked]
    have hrelease :
        (view c).queue.updateReadIndex = some (view c).queue.storeReadIndex.countDown := by
      rw [updateReadIndex_eq]
      exact if_neg (hnonempty nofun)
    right
    simp only [Channel.consume, hconsumer, hrelease]
    simp only [view, storeReadIndex, countDown, ringSlot_succ]

theorem Inv.view_step (h : Inv c) (t : Thread) :
    view (c.step t) = view c ∨ view (c.step t) = (view c).step t := by
  have hrunning : (view c).aborted = false := h.running
  rw [step_of_running h.running, Channel.step_of_running hrunning]
  cases t with
  | producer => exact h.view_produce
  | consumer => exact h.view_consume

theorem inv_after (default : α) (xs : List α) (schedule : List Thread) :
    Inv (schedule.foldl step (start default xs : AtomicRing α N)) :=
  foldl_preserves (fun _ t h => h.step t) (Inv.start default xs) schedule

/-- Every run over single accesses is a run over whole calls. -/
theorem exists_channel_run (default : α) (xs : List α) (schedule : List Thread) :
    ∃ calls : List Thread, calls.Sublist schedule ∧
      view (schedule.foldl step (start default xs : AtomicRing α N)) =
        calls.foldl Channel.step (Channel.start default xs) :=
  exists_abstract_run (P := Inv) (fun _ t h => h.step t) (fun _ t h => h.view_step t)
    (.start default xs) schedule

/-! ### What the offered slot holds -/

/-- The number of slot writes so far. -/
def written (c : AtomicRing α N) : ℕ :=
  match c.producer with
  | .written => c.sent.length + 1
  | .indexed => c.sent.length + 1
  | _ => c.sent.length

omit [NeZero N] in
theorem sent_le_written (c : AtomicRing α N) : c.sent.length ≤ c.written := by
  unfold written
  split <;> omega

theorem view_written (c : AtomicRing α N) : (view c).written = c.written := by
  unfold Channel.written written view
  cases c.producer <;> rfl

omit [NeZero N] in
/-- Below a bound the greatest number in a residue class is less than N away from it. -/
theorem exists_greatest_mod {r n : ℕ} (hN : 0 < N) (hr : r < n) :
    ∃ j, IsGreatest {j | j < n ∧ j % N = r % N} j ∧ n ≤ j + N ∧ (j = r ↔ ¬ r + N < n) := by
  have hdiv := Nat.div_add_mod (n - 1 - r) N
  have hmod := Nat.mod_lt (n - 1 - r) hN
  refine ⟨r + N * ((n - 1 - r) / N), ⟨⟨by omega, Nat.add_mul_mod_self_left ..⟩, ?_⟩, by omega, ?_⟩
  · rintro k ⟨hk, hclass⟩
    by_contra hlt
    rw [← Nat.add_mul_mod_self_left r N ((n - 1 - r) / N)] at hclass
    have hdvd := Nat.dvd_of_mod_eq_zero (Nat.sub_mod_eq_zero_of_mod_eq hclass)
    have hle := Nat.le_of_dvd (by omega) hdvd
    omega
  · constructor
    · intro heq
      omega
    · intro hnot
      have hzero : (n - 1 - r) / N = 0 := Nat.div_eq_of_lt (by omega)
      rw [hzero, Nat.mul_zero, Nat.add_zero]

/-- The state of the ring under every schedule. An index is ahead only between the store of the
index and the count of the same call. The offered slot holds the last item written to it, which
is the oldest one that waits until the producer comes round to it again. -/
theorem ring_delivers (default : α) (xs : List α) (schedule : List Thread) :
    let c := schedule.foldl step (start default xs : AtomicRing α N)
    c.queue.nextWriteIndex.val = (c.sent.length + c.producer.ahead) % N ∧
    c.queue.nextReadIndex.val = (c.released + c.consumer.ahead) % N ∧
    c.sent = xs.take c.sent.length ∧
    c.released ≤ c.sent.length ∧ c.queue.size = c.sent.length - c.released ∧
    c.aborted = false ∧
    ∀ slot, c.consumer.offered = some slot →
      ∃ j, IsGreatest {j | j < c.written ∧ j % N = c.released % N} j ∧
        xs[j]? = some (c.queue.store slot) ∧ (j = c.released ↔ ¬ c.released + N < c.written) := by
  intro c
  have h : Inv c := inv_after default xs schedule
  obtain ⟨calls, -, hcalls⟩ := exists_channel_run (N := N) default xs schedule
  have hview : Channel.Inv xs (view c) := by
    rw [hcalls]
    exact Channel.inv_run default xs calls
  have hsize : c.queue.numElements + c.released = c.sent.length := hview.size
  refine ⟨congrArg Fin.val h.writeIndex, congrArg Fin.val h.readIndex, ?_, by omega, ?_,
    h.running, ?_⟩
  · have hitems : c.sent ++ c.pending = xs := hview.items
    rw [← hitems, List.take_left]
  · rw [LFQueue.size]
    omega
  · intro slot hslot
    have hnonempty : c.queue.numElements ≠ 0 := by
      apply h.nonempty
      intro hidle
      rw [hidle] at hslot
      cases hslot
    have hwritten := sent_le_written c
    obtain ⟨j, hgreatest, hnear, hiff⟩ :=
      exists_greatest_mod (Nat.pos_of_ne_zero (NeZero.ne N)) (show c.released < c.written by omega)
    refine ⟨j, hgreatest, ?_, hiff⟩
    have hcontent := hview.content j
    rw [view_written] at hcontent
    have hsame : slot = ringSlot N j := by
      rw [h.holdsRead slot hslot]
      exact Fin.ext hgreatest.1.2.symm
    rw [hsame]
    exact hcontent hgreatest.1.1 hnear

/-- In a ring of one slot the second item is written while the first is offered. -/
theorem ring_delivers_one_slot :
    let c := [.producer, .producer, .producer, .producer, .consumer, .consumer, .producer,
      .producer].foldl step (start 0 [7, 8] : AtomicRing ℕ 1)
    c.aborted = false ∧ c.consumer.offered = some ⟨0, Nat.zero_lt_one⟩ ∧
      ∃ j, IsGreatest {j | j < c.written ∧ j % 1 = c.released % 1} j ∧
        [7, 8][j]? = some (c.queue.store ⟨0, Nat.zero_lt_one⟩) ∧
        (j = c.released ↔ ¬ c.released + 1 < c.written) := by
  intro c
  have h := ring_delivers (N := 1) 0 [7, 8] [.producer, .producer, .producer, .producer, .consumer,
    .consumer, .producer, .producer]
  exact ⟨h.2.2.2.2.2.1, rfl, h.2.2.2.2.2.2 _ rfl⟩

end AtomicRing

end HftSystem
