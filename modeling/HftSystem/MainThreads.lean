import HftSystem.Progress

/-!
The threads of `main` at their end. `main` waits for the ingester, clears the flag of the
order book manager and waits for its thread. That thread sets the flag when it begins, so
a stop that comes before its first step is lost and `main` waits for ever; any later stop
is seen within one visit of the queue.
-/
namespace HftSystem

/-! ### The three threads -/

/-- Where the thread of `OrderBookManager::run` is: before `running_ = true`, at the condition of
its loop, in the body of the loop, or at its end. -/
inductive ManagerPhase where
  | launched
  | testing
  | visiting
  | returned
deriving DecidableEq

/-- The statements of `main` behind the launch of the threads. -/
inductive MainStatement where
  | joinIngester
  | stopBooks
  | joinBooks
deriving DecidableEq

inductive MainThread where
  | ingester
  | manager
  | main
deriving DecidableEq

/-- `loopEnds` says whether `startReceiving` returns at all, and `main` is the statement that `main`
has come to, none when it has returned. -/
structure MainProcess (N M : ℕ) where
  feed : MarketFeed (fun _ : Fin 1 => N) M
  loopEnds : Bool
  ingesterReturned : Bool := false
  running : Bool := false
  manager : ManagerPhase := .launched
  main : Option MainStatement := some .joinIngester

namespace MainProcess

open Channel Transitions

variable {N M : ℕ} [NeZero N] [NeZero M]

def start (default : MarketUpdate) (arrivals : List MarketUpdate) (loopEnds : Bool)
    (o : OrderBookManager M) : MainProcess N M where
  feed := .start default (fun _ => arrivals) o
  loopEnds := loopEnds

/-- The ingester enqueues what arrives and then returns, if its loop ends. -/
def ingesterStep (p : MainProcess N M) : MainProcess N M :=
  match (p.feed.channels ⟨0, Nat.one_pos⟩).pending with
  | [] => { p with ingesterReturned := p.loopEnds }
  | _ :: _ => { p with feed := p.feed.step (.produce ⟨0, Nat.one_pos⟩) }

/-- The flag is tested between two visits of the queue. -/
def managerStep (p : MainProcess N M) : MainProcess N M :=
  match p.manager with
  | .launched => { p with running := true, manager := .testing }
  | .testing =>
    if p.running then { p with manager := .visiting, feed := { p.feed with turn := 0 } }
    else { p with manager := .returned }
  | .visiting =>
    let feed := p.feed.step .consume
    { p with feed, manager := if feed.turn < 1 then .visiting else .testing }
  | .returned => p

/-- A join is passed once the thread has returned. -/
def mainStep (p : MainProcess N M) : MainProcess N M :=
  match p.main with
  | some .joinIngester => if p.ingesterReturned then { p with main := some .stopBooks } else p
  | some .stopBooks => { p with running := false, main := some .joinBooks }
  | some .joinBooks => if p.manager = .returned then { p with main := none } else p
  | none => p

def step (p : MainProcess N M) : MainThread → MainProcess N M
  | .ingester => p.ingesterStep
  | .manager => p.managerStep
  | .main => p.mainStep

/-! ### What every run keeps -/

/-- Outside a visit the manager thread holds no slot. -/
structure Kept (arrivals : List MarketUpdate) (o : OrderBookManager M) (p : MainProcess N M) :
    Prop where
  serving : p.feed.Serving (fun _ => arrivals)
  recorded : p.feed.Recorded o
  visit : p.manager = .visiting → p.feed.turn = 0
  resting : p.manager ≠ .visiting → (p.feed.channels 0).consumer = .idle

variable {arrivals : List MarketUpdate} {o : OrderBookManager M} {p : MainProcess N M}

theorem Kept.start (default : MarketUpdate) (arrivals : List MarketUpdate) (loopEnds : Bool)
    (o : OrderBookManager M) :
    Kept arrivals o (start default arrivals loopEnds o : MainProcess N M) where
  serving := .start default _ o
  recorded := .start default _ o
  visit h := nomatch h
  resting _ := rfl

theorem consumer_step_produce (h : p.feed.Serving (fun _ => arrivals)) :
    ((p.feed.step (.produce 0)).channels 0).consumer = (p.feed.channels 0).consumer := by
  rw [h.step_eq]
  dsimp only
  rw [Function.update_self, MarketFeed.consumer_produce]

theorem turn_step_produce (h : p.feed.Serving (fun _ => arrivals)) :
    (p.feed.step (.produce 0)).turn = p.feed.turn := by
  rw [h.step_eq]

theorem Kept.ingesterStep (h : Kept arrivals o p) : Kept arrivals o p.ingesterStep := by
  unfold MainProcess.ingesterStep
  split
  · exact ⟨h.serving, h.recorded, h.visit, h.resting⟩
  · have hserving := h.serving.step (.produce 0 : Action 1)
    have hrecorded := h.recorded.step (.produce 0 : Action 1)
    refine ⟨hserving, hrecorded, fun hvisit => ?_, fun hrest => ?_⟩
    · exact (turn_step_produce h.serving).trans (h.visit hvisit)
    · exact (consumer_step_produce h.serving).trans (h.resting hrest)

omit [NeZero M] in
/-- The thread is free again when it leaves the queue. -/
theorem idle_of_left (h : p.feed.Serving (fun _ => arrivals)) (hleft : ¬ p.feed.turn < 1) :
    (p.feed.channels 0).consumer = .idle := by
  by_contra hbusy
  have hturn : p.feed.turn = 0 := h.visiting 0 hbusy
  omega

theorem Kept.managerStep (h : Kept arrivals o p) : Kept arrivals o p.managerStep := by
  unfold MainProcess.managerStep
  split
  · rename_i hmanager
    exact ⟨h.serving, h.recorded, fun hvisit => (nomatch hvisit),
      fun _ => h.resting (by rw [hmanager]; decide)⟩
  · rename_i hmanager
    have hidle := h.resting (by rw [hmanager]; decide)
    split
    · refine ⟨⟨h.serving.served, fun i hbusy => ?_, Nat.zero_le 1⟩,
        ⟨h.recorded.manager, h.recorded.history⟩, fun _ => rfl, fun _ => hidle⟩
      obtain rfl := Subsingleton.elim i 0
      exact absurd hidle hbusy
    · exact ⟨h.serving, h.recorded, fun hvisit => (nomatch hvisit), fun _ => hidle⟩
  · have hserving := h.serving.step (.consume : Action 1)
    have hrecorded := h.recorded.step (.consume : Action 1)
    dsimp only
    generalize p.feed.step .consume = feed at hserving hrecorded
    by_cases hstays : feed.turn < 1
    · rw [if_pos hstays]
      exact ⟨hserving, hrecorded, fun _ => Nat.lt_one_iff.mp hstays, fun hrest => absurd rfl hrest⟩
    · rw [if_neg hstays]
      exact ⟨hserving, hrecorded, fun hvisit => (nomatch hvisit),
        fun _ => idle_of_left (p := { p with feed := feed }) hserving hstays⟩
  · exact h

theorem Kept.mainStep (h : Kept arrivals o p) : Kept arrivals o p.mainStep := by
  unfold MainProcess.mainStep
  repeat' split
  all_goals exact ⟨h.serving, h.recorded, h.visit, h.resting⟩

theorem Kept.step (h : Kept arrivals o p) (t : MainThread) : Kept arrivals o (p.step t) := by
  cases t with
  | ingester => exact h.ingesterStep
  | manager => exact h.managerStep
  | main => exact h.mainStep

/-! ### A stop that is lost -/

/-- The manager thread has not begun, or it has and nothing will clear its flag again. -/
structure StopLost (p : MainProcess N M) : Prop where
  joining : p.main = some .joinBooks
  never : p.manager = .launched ∨ p.running = true ∧ p.manager ≠ .returned

theorem StopLost.step (h : StopLost p) (t : MainThread) : StopLost (p.step t) := by
  have hjoining := h.joining
  cases t with
  | ingester =>
    change StopLost p.ingesterStep
    unfold ingesterStep
    split
    · exact ⟨hjoining, h.never⟩
    · exact ⟨hjoining, h.never⟩
  | manager =>
    change StopLost p.managerStep
    rcases h.never with hlaunched | ⟨hrunning, hworking⟩
    · unfold managerStep
      rw [hlaunched]
      exact ⟨hjoining, Or.inr ⟨rfl, fun h => nomatch h⟩⟩
    · unfold managerStep
      split
      · exact ⟨hjoining, Or.inr ⟨rfl, fun h => nomatch h⟩⟩
      · rw [if_pos hrunning]
        exact ⟨hjoining, Or.inr ⟨hrunning, fun h => nomatch h⟩⟩
      · refine ⟨hjoining, Or.inr ⟨hrunning, ?_⟩⟩
        dsimp only
        split
        · exact fun h => nomatch h
        · exact fun h => nomatch h
      · exact ⟨hjoining, Or.inr ⟨hrunning, hworking⟩⟩
  | main =>
    change StopLost p.mainStep
    have hmanager : p.manager ≠ .returned := by
      rcases h.never with hlaunched | ⟨-, hworking⟩
      · rw [hlaunched]
        decide
      · exact hworking
    unfold mainStep
    rw [hjoining]
    dsimp only
    rw [if_neg hmanager]
    exact h

/-! ### A stop that is seen -/

/-- The steps that the manager thread has left: the rest of a visit and one test of the flag. -/
def left (p : MainProcess N M) : ℕ :=
  match p.manager with
  | .launched => 0
  | .testing => 1
  | .visiting => 4 - (p.feed.channels ⟨0, Nat.one_pos⟩).consumer.phase
  | .returned => 0

/-- The updates that the manager thread may still pass on before it tests the flag. -/
def toGo (p : MainProcess N M) : ℕ :=
  match p.manager with
  | .visiting => 1 - (p.feed.channels ⟨0, Nat.one_pos⟩).consumer.phase / 2
  | _ => 0

section Frames

omit [NeZero N] [NeZero M]

variable {q : MainProcess N M}

theorem left_congr (hmanager : q.manager = p.manager)
    (hconsumer : (q.feed.channels 0).consumer = (p.feed.channels 0).consumer) :
    q.left = p.left := by
  unfold left
  change (q.feed.channels ⟨0, Nat.one_pos⟩).consumer = _ at hconsumer
  rw [hmanager, hconsumer]
  rfl

theorem toGo_congr (hmanager : q.manager = p.manager)
    (hconsumer : (q.feed.channels 0).consumer = (p.feed.channels 0).consumer) :
    q.toGo = p.toGo := by
  unfold toGo
  change (q.feed.channels ⟨0, Nat.one_pos⟩).consumer = _ at hconsumer
  rw [hmanager, hconsumer]
  rfl

theorem left_of_testing (h : p.manager = .testing) : p.left = 1 := by
  unfold left
  rw [h]

theorem left_of_visiting (h : p.manager = .visiting) :
    p.left = 4 - (p.feed.channels 0).consumer.phase := by
  unfold left
  rw [h]
  rfl

theorem left_of_returned (h : p.manager = .returned) : p.left = 0 := by
  unfold left
  rw [h]

theorem toGo_of_visiting (h : p.manager = .visiting) :
    p.toGo = 1 - (p.feed.channels 0).consumer.phase / 2 := by
  unfold toGo
  rw [h]
  rfl

theorem toGo_of_ne (h : p.manager ≠ .visiting) : p.toGo = 0 := by
  unfold toGo
  split
  · exact absurd ‹_› h
  · rfl

theorem left_le (p : MainProcess N M) : p.left ≤ 4 := by
  unfold left
  split <;> omega

theorem toGo_le (p : MainProcess N M) : p.toGo ≤ 1 := by
  unfold toGo
  split <;> omega

/-- After the stop `main` only waits. -/
theorem mainStep_joining (h : p.main = some .joinBooks ∨ p.main = none) :
    p.mainStep = { p with main := if p.manager = .returned then none else p.main } := by
  unfold mainStep
  rcases h with hjoin | hdone
  · rw [hjoin]
    dsimp only
    split
    · rfl
    · rw [← hjoin]
  · rw [hdone]
    simp [← hdone]

end Frames

theorem ingesterStep_frame (p : MainProcess N M) :
    p.ingesterStep.main = p.main ∧ p.ingesterStep.manager = p.manager ∧
      p.ingesterStep.running = p.running := by
  unfold ingesterStep
  split
  · exact ⟨rfl, rfl, rfl⟩
  · exact ⟨rfl, rfl, rfl⟩

theorem managerStep_main (p : MainProcess N M) : p.managerStep.main = p.main := by
  unfold managerStep
  repeat' split
  all_goals rfl

theorem managerStep_running (h : p.manager ≠ .launched) : p.managerStep.running = p.running := by
  unfold managerStep
  split
  · exact absurd ‹_› h
  · split
    · rfl
    · rfl
  · rfl
  · rfl

/-- What has returned stays so. -/
theorem ended_step (hended : p.main = none) (t : MainThread) : (p.step t).main = none := by
  cases t with
  | ingester => exact (ingesterStep_frame p).1.trans hended
  | manager => exact (managerStep_main p).trans hended
  | main =>
    change p.mainStep.main = none
    unfold mainStep
    rw [hended]
    exact hended

/-- The ingester touches neither what the manager thread holds nor what it has passed on. -/
theorem Kept.ingesterStep_feed (h : Kept arrivals o p) :
    (p.ingesterStep.feed.channels 0).consumer = (p.feed.channels 0).consumer ∧
      p.ingesterStep.feed.history = p.feed.history := by
  unfold MainProcess.ingesterStep
  split
  · exact ⟨rfl, rfl⟩
  · refine ⟨consumer_step_produce h.serving, ?_⟩
    dsimp only
    rw [h.serving.step_eq]

/-- A step of a visit ends it, or comes one step further and passes on an update if it holds one. -/
theorem managerStep_visiting (h : Kept arrivals o p) (hmanager : p.manager = .visiting) :
    p.managerStep.manager = .testing ∧ p.managerStep.feed.history = p.feed.history ∨
      p.managerStep.manager = .visiting ∧ (p.feed.channels 0).consumer.phase < 2 ∧
        (p.managerStep.feed.channels 0).consumer.phase =
          (p.feed.channels 0).consumer.phase + 1 ∧
        p.managerStep.feed.history.length =
          p.feed.history.length + (p.feed.channels 0).consumer.phase := by
  have hnonempty := (h.serving.served 0).nonempty
  have hturn := h.visit hmanager
  have hstep : p.feed.step .consume = p.feed.visit 0 := by
    rw [h.serving.step_eq]
    dsimp only
    rw [dif_pos (show p.feed.turn < 1 by omega)]
    exact congrArg p.feed.visit (Subsingleton.elim _ 0)
  have hafter : p.managerStep =
      { p with feed := p.feed.visit 0
               manager := if (p.feed.visit 0).turn < 1 then .visiting else .testing } := by
    unfold managerStep
    rw [hmanager, ← hstep]
  rw [hafter]
  have hmove := consume_spec (p.feed.channels 0)
  have hturn' : (p.feed.visit 0).turn =
      if (p.feed.channels 0).consume.consumer = .idle then p.feed.turn + 1 else p.feed.turn := rfl
  have hchannel : (p.feed.visit 0).channels 0 = (p.feed.channels 0).consume := by
    change Function.update p.feed.channels 0 (p.feed.channels 0).consume 0 = _
    rw [Function.update_self]
  have hhistory : (p.feed.visit 0).history =
      p.feed.history ++ (p.feed.channels 0).passing.toList := rfl
  dsimp only
  rw [hturn', hchannel, hhistory, hturn]
  generalize (p.feed.channels 0).consume = c at hmove
  cases hmove with
  | poll hidle _ =>
    left
    simp [passing, hidle]
  | fetch hidle _ =>
    right
    simp [passing, hidle, ConsumerState.phase]
  | pass hslot =>
    right
    simp [passing, hslot, ConsumerState.phase]
  | release hpassed _ =>
    left
    simp [passing, hpassed]
  | abort hpassed hempty =>
    refine absurd hempty (hnonempty (fun hidle => ?_))
    rw [hpassed] at hidle
    cases hidle

/-- The flag is cleared for good. -/
structure StopSeen (arrivals : List MarketUpdate) (o : OrderBookManager M)
    (p : MainProcess N M) : Prop extends Kept arrivals o p where
  joining : p.main = some .joinBooks ∨ p.main = none
  begun : p.manager ≠ .launched
  cleared : p.running = false

/-- Every way a step of the manager thread can end once the flag is cleared. -/
inductive LastMove (p q : MainProcess N M) : Prop
  | visit (hmanager : p.manager = .visiting) (hmanager' : q.manager = .visiting)
      (hphase : (p.feed.channels 0).consumer.phase < 2)
      (hphase' : (q.feed.channels 0).consumer.phase = (p.feed.channels 0).consumer.phase + 1)
      (hhistory : q.feed.history.length =
        p.feed.history.length + (p.feed.channels 0).consumer.phase)
  | leave (hmanager : p.manager = .visiting) (hmanager' : q.manager = .testing)
      (hhistory : q.feed.history = p.feed.history)
  | quit (hmanager : p.manager = .testing) (hmanager' : q.manager = .returned)
      (hhistory : q.feed.history = p.feed.history)
  | rest (hmanager : p.manager = .returned) (hsame : q = p)

theorem StopSeen.lastMove (h : StopSeen arrivals o p) : LastMove p p.managerStep := by
  cases hmanager : p.manager with
  | launched => exact absurd hmanager h.begun
  | testing =>
    have hstep : p.managerStep = { p with manager := .returned } := by
      unfold managerStep
      rw [hmanager]
      dsimp only
      rw [if_neg (by rw [h.cleared]; exact Bool.false_ne_true)]
    rw [hstep]
    exact .quit hmanager rfl rfl
  | visiting =>
    rcases managerStep_visiting h.toKept hmanager with
      ⟨htesting, hhistory⟩ | ⟨hvisiting, hphase, hphase', hhistory⟩
    · exact .leave hmanager htesting hhistory
    · exact .visit hmanager hvisiting hphase hphase' hhistory
  | returned =>
    refine .rest hmanager ?_
    unfold managerStep
    rw [hmanager]

theorem StopSeen.step (h : StopSeen arrivals o p) (t : MainThread) :
    StopSeen arrivals o (p.step t) := by
  have hkept := h.toKept.step t
  cases t with
  | ingester =>
    obtain ⟨hmain, hmanager, hrunning⟩ := ingesterStep_frame p
    exact ⟨hkept, hmain ▸ h.joining, hmanager ▸ h.begun, hrunning ▸ h.cleared⟩
  | manager =>
    refine ⟨hkept, managerStep_main p ▸ h.joining, ?_, managerStep_running h.begun ▸ h.cleared⟩
    change p.managerStep.manager ≠ .launched
    cases h.lastMove with
    | visit _ hmanager => exact fun hlaunched => nomatch hmanager.symm.trans hlaunched
    | leave _ hmanager => exact fun hlaunched => nomatch hmanager.symm.trans hlaunched
    | quit _ hmanager => exact fun hlaunched => nomatch hmanager.symm.trans hlaunched
    | rest _ hsame =>
      rw [hsame]
      exact h.begun
  | main =>
    have hstep : p.step .main = _ := mainStep_joining h.joining
    rw [hstep] at hkept ⊢
    refine ⟨hkept, ?_, h.begun, h.cleared⟩
    dsimp only
    split
    · exact Or.inr rfl
    · exact h.joining

theorem StopSeen.left_manager_lt (h : StopSeen arrivals o p) (hleft : p.left ≠ 0) :
    (p.step .manager).left < p.left := by
  change p.managerStep.left < p.left
  have hphase := (p.feed.channels 0).consumer.phase_le
  cases h.lastMove with
  | visit hmanager hmanager' hlt hphase' hhistory =>
    rw [left_of_visiting hmanager', left_of_visiting hmanager, hphase']
    omega
  | leave hmanager hmanager' =>
    rw [left_of_testing hmanager', left_of_visiting hmanager]
    omega
  | quit hmanager hmanager' =>
    rw [left_of_returned hmanager', left_of_testing hmanager]
    exact Nat.one_pos
  | rest hmanager hsame => exact absurd (left_of_returned hmanager) hleft

/-- A step of another thread changes nothing of the manager thread. -/
theorem StopSeen.other_step (h : StopSeen arrivals o p) {t : MainThread} (ht : t ≠ .manager) :
    (p.step t).manager = p.manager ∧
      ((p.step t).feed.channels 0).consumer = (p.feed.channels 0).consumer ∧
      (p.step t).feed.history = p.feed.history := by
  cases t with
  | ingester => exact ⟨(ingesterStep_frame p).2.1, h.toKept.ingesterStep_feed⟩
  | manager => exact absurd rfl ht
  | main =>
    have hstep : p.step .main = _ := mainStep_joining h.joining
    rw [hstep]
    exact ⟨rfl, rfl, rfl⟩

theorem StopSeen.left_step_le (h : StopSeen arrivals o p) (t : MainThread) :
    (p.step t).left ≤ p.left := by
  by_cases ht : t = .manager
  · subst ht
    by_cases hleft : p.left = 0
    · cases h.lastMove with
      | visit hmanager =>
        have hphase := (p.feed.channels 0).consumer.phase_le
        rw [left_of_visiting hmanager] at hleft
        omega
      | leave hmanager =>
        have hphase := (p.feed.channels 0).consumer.phase_le
        rw [left_of_visiting hmanager] at hleft
        omega
      | quit hmanager =>
        rw [left_of_testing hmanager] at hleft
        omega
      | rest _ hsame =>
        change p.managerStep.left ≤ p.left
        rw [hsame]
    · exact (h.left_manager_lt hleft).le
  · obtain ⟨hmanager, hconsumer, -⟩ := h.other_step ht
    exact (left_congr hmanager hconsumer).le

/-- What is passed on from now on was already in hand, or is one more update. -/
theorem StopSeen.passed_step_le (h : StopSeen arrivals o p) (t : MainThread) :
    (p.step t).feed.history.length + (p.step t).toGo ≤ p.feed.history.length + p.toGo := by
  by_cases ht : t = .manager
  · subst ht
    change p.managerStep.feed.history.length + p.managerStep.toGo ≤ _
    cases h.lastMove with
    | visit hmanager hmanager' hlt hphase' hhistory =>
      rw [toGo_of_visiting hmanager', toGo_of_visiting hmanager, hphase', hhistory]
      omega
    | leave hmanager hmanager' hhistory =>
      rw [toGo_of_ne (by rw [hmanager']; exact fun hvisit => nomatch hvisit), hhistory]
      omega
    | quit hmanager hmanager' hhistory =>
      rw [toGo_of_ne (by rw [hmanager']; exact fun hvisit => nomatch hvisit), hhistory]
      omega
    | rest _ hsame => rw [hsame]
  · obtain ⟨hmanager, hconsumer, hhistory⟩ := h.other_step ht
    rw [hhistory, toGo_congr hmanager hconsumer]

theorem StopSeen.run (h : StopSeen arrivals o p) (ts : List MainThread) :
    StopSeen arrivals o (ts.foldl MainProcess.step p) :=
  foldl_preserves (fun _ t h => h.step t) h ts

theorem StopSeen.passed_run_le (h : StopSeen arrivals o p) (ts : List MainThread) :
    (ts.foldl MainProcess.step p).feed.history.length ≤ p.feed.history.length + 1 := by
  have hle : StopSeen arrivals o (ts.foldl MainProcess.step p) ∧
      (ts.foldl MainProcess.step p).feed.history.length + (ts.foldl MainProcess.step p).toGo ≤
        p.feed.history.length + p.toGo :=
    foldl_preserves (P := fun q => StopSeen arrivals o q ∧
        q.feed.history.length + q.toGo ≤ p.feed.history.length + p.toGo)
      (fun _ t hq => ⟨hq.1.step t, (hq.1.passed_step_le t).trans hq.2⟩) ⟨h, Nat.le_refl _⟩ ts
  have hone := toGo_le p
  exact (Nat.le_of_add_right_le hle.2).trans (Nat.add_le_add_left hone _)

theorem StopSeen.returned_of_left (h : StopSeen arrivals o p) (hzero : p.left = 0) :
    p.manager = .returned := by
  have hphase := (p.feed.channels 0).consumer.phase_le
  cases hmanager : p.manager with
  | launched => exact absurd hmanager h.begun
  | testing =>
    rw [left_of_testing hmanager] at hzero
    exact absurd hzero Nat.one_ne_zero
  | visiting =>
    rw [left_of_visiting hmanager] at hzero
    omega
  | returned => rfl

/-- Four steps of the manager thread are enough for the rest of a visit and the test. -/
theorem StopSeen.returned_run (h : StopSeen arrivals o p) (ts : List MainThread)
    (hcount : 4 ≤ ts.count .manager) : (ts.foldl MainProcess.step p).manager = .returned := by
  have hle := foldl_measure (P := StopSeen arrivals o) (· == .manager)
    (left : MainProcess N M → ℕ) (fun _ t h => h.step t) (fun _ t h => h.left_step_le t)
    (fun q t h ht hleft => by
      rw [eq_of_beq ht]
      exact h.left_manager_lt hleft) h ts
  have hfour := left_le p
  rw [List.count] at hcount
  exact (h.run ts).returned_of_left (by omega)

theorem StopSeen.returned_step (h : StopSeen arrivals o p) (hreturned : p.manager = .returned)
    (t : MainThread) : (p.step t).manager = .returned := by
  by_cases ht : t = .manager
  · subst ht
    change p.managerStep.manager = .returned
    unfold managerStep
    rw [hreturned]
    exact hreturned
  · exact (h.other_step ht).1.trans hreturned

/-- Once the manager thread has returned, the next step of `main` is its last. -/
theorem StopSeen.ended (h : StopSeen arrivals o p) (hreturned : p.manager = .returned) :
    (p.step .main).main = none := by
  change p.mainStep.main = none
  rw [mainStep_joining h.joining]
  exact if_pos hreturned

theorem StopSeen.main_run (h : StopSeen arrivals o p) (hreturned : p.manager = .returned)
    {us : List MainThread} (hmain : .main ∈ us) : (us.foldl MainProcess.step p).main = none := by
  obtain ⟨as, bs, rfl⟩ := List.append_of_mem hmain
  rw [List.foldl_append, List.foldl_cons]
  obtain ⟨hseen, hdone⟩ : StopSeen arrivals o (as.foldl MainProcess.step p) ∧
      (as.foldl MainProcess.step p).manager = .returned :=
    foldl_preserves (P := fun q => StopSeen arrivals o q ∧ q.manager = .returned)
      (fun _ t hq => ⟨hq.1.step t, hq.1.returned_step hq.2 t⟩) ⟨h, hreturned⟩ as
  exact foldl_preserves (P := fun q : MainProcess N M => q.main = none)
    (fun _ t hq => ended_step hq t) (hseen.ended hdone) bs

/-! ### When main returns -/

theorem mainStep_stop (hstop : p.main = some .stopBooks) :
    p.step .main = { p with running := false, main := some .joinBooks } := by
  change p.mainStep = _
  unfold mainStep
  rw [hstop]

/-- A stop before the first step of the manager thread is lost. -/
theorem stopLost_of_launched (hstop : p.main = some .stopBooks)
    (hlaunched : p.manager = .launched) : StopLost (p.step .main) := by
  rw [mainStep_stop hstop]
  exact ⟨rfl, Or.inl hlaunched⟩

/-- Any later stop is seen. -/
theorem Kept.stopSeen (h : Kept arrivals o p) (hstop : p.main = some .stopBooks)
    (hbegun : p.manager ≠ .launched) : StopSeen arrivals o (p.step .main) := by
  have hafter := h.step .main
  rw [mainStep_stop hstop] at hafter ⊢
  exact ⟨hafter, Or.inl rfl, hbegun, rfl⟩

/-- Whatever the order of the steps: when `main` comes to its stop, it can still return exactly if
the manager thread has begun. It then returns as soon as that thread has had four steps, and at
most one more update reaches the books; what is left in the queue is dropped. -/
theorem main_returns_iff (default : MarketUpdate) (arrivals : List MarketUpdate) (loopEnds : Bool)
    (o : OrderBookManager M) (schedule : List MainThread) :
    let p := schedule.foldl step (start default arrivals loopEnds o : MainProcess N M)
    p.main = some .stopBooks →
      ((∃ ts : List MainThread, (ts.foldl step (p.step .main)).main = none) ↔
          p.manager ≠ .launched) ∧
        (p.manager ≠ .launched →
          (∀ ts us : List MainThread, 4 ≤ ts.count .manager → .main ∈ us →
            ((ts ++ us).foldl step (p.step .main)).main = none) ∧
          ∀ ts : List MainThread, let q := ts.foldl step (p.step .main)
            q.feed.history.length ≤ p.feed.history.length + 1 ∧
              q.feed.manager = q.feed.history.foldl OrderBookManager.passUpdateToOrderbook o ∧
              (arrivals.length ≤ N → q.feed.history <+: arrivals)) := by
  intro p hstop
  have hkept : Kept arrivals o p :=
    foldl_preserves (fun _ t h => h.step t) (Kept.start default arrivals loopEnds o) schedule
  have hlost := stopLost_of_launched hstop
  have hseen := hkept.stopSeen hstop
  have hreturns : p.manager ≠ .launched → ∀ ts us : List MainThread,
      4 ≤ ts.count .manager → .main ∈ us → ((ts ++ us).foldl step (p.step .main)).main = none := by
    intro hbegun ts us hcount hmain
    rw [List.foldl_append]
    exact ((hseen hbegun).run ts).main_run ((hseen hbegun).returned_run ts hcount) hmain
  refine ⟨⟨?_, ?_⟩, fun hbegun => ⟨hreturns hbegun, fun ts => ?_⟩⟩
  · rintro ⟨ts, hended⟩ hlaunched
    have hjoining := (foldl_preserves (fun _ t h => h.step t) (hlost hlaunched) ts).joining
    exact nomatch hended.symm.trans hjoining
  · intro hbegun
    have hmain : MainThread.main ∈ [MainThread.main] := List.mem_singleton.mpr rfl
    refine ⟨List.replicate 4 .manager ++ [.main], hreturns hbegun _ _ ?_ hmain⟩
    rw [List.count_replicate_self]
  · have hq := (hseen hbegun).run ts
    have hpassed := (hseen hbegun).passed_run_le ts
    have hsame : (p.step .main).feed.history = p.feed.history := by rw [mainStep_stop hstop]
    rw [hsame] at hpassed
    refine ⟨hpassed, hq.recorded.manager, fun hfits => ?_⟩
    rw [hq.recorded.history]
    exact ((hq.serving.served 0).fitting hfits).inOrder

/-- The connection fails before the manager thread has had its first step. -/
theorem main_returns_iff_failed_connection :
    ¬ ∃ ts : List MainThread, (ts.foldl step (([.ingester, .main].foldl step
      (start (.new 0 .invalid 0 0 0 0 0) [] true (.registered [7]) : MainProcess 2 4)).step
        .main)).main = none :=
  ((main_returns_iff (.new 0 .invalid 0 0 0 0 0) [] true (.registered [7]) [.ingester, .main]
    rfl).1.not).mpr (fun h => h rfl)

end MainProcess

end HftSystem
