import HftSystem.MainThreads
import HftSystem.Shutdown

/-!
Under a fair schedule of its threads `main` returns exactly when the call of `startReceiving`
does and the stop of the order book manager is not lost. Nobody clears the flag of the ingester,
so a call that enters its loop never returns.
-/
namespace HftSystem.MainProcess

open Channel Transitions
open MarketDataIngester (ReceiveCall Upgraded)

variable {N M : ℕ} [NeZero N] [NeZero M] {arrivals : List MarketUpdate} {o : OrderBookManager M}
  {p : MainProcess N M}

/-! ### The call and the process -/

/-- The process as far as the ingester comes in a number of tests of its loop. -/
def launch (default : MarketUpdate) (c : ReceiveCall) (tests : ℕ) (o : OrderBookManager M) :
    MainProcess N M :=
  match c.result tests with
  | some (_, us) => start default us true o
  | none =>
    start default (MarketDataIngester.startReceiving c.parser tests c.tsc c.connects c.texts c.path
      c.protocol c.ws).2 false o

/-- Everything that `main` waits for comes. -/
def ShutsDown (N : ℕ) [NeZero N] (default : MarketUpdate) (c : ReceiveCall) (o : OrderBookManager M)
    (schedule : ℕ → MainThread) : Prop :=
  ∃ tests n, (states step (launch default c tests o : MainProcess N M) schedule n).main = none

/-- The manager thread has had its first step whenever `main` comes to clear the flag. -/
def StopsBegun (N : ℕ) [NeZero N] (default : MarketUpdate) (c : ReceiveCall)
    (o : OrderBookManager M) (schedule : ℕ → MainThread) : Prop :=
  ∀ tests n, schedule n = .main →
    (states step (launch default c tests o : MainProcess N M) schedule n).main = some .stopBooks →
      (states step (launch default c tests o : MainProcess N M) schedule n).manager ≠ .launched

section Endless

variable {default : MarketUpdate} {c : ReceiveCall} {schedule : ℕ → MainThread}

theorem managerStep_ingester (p : MainProcess N M) :
    p.managerStep.ingesterReturned = p.ingesterReturned ∧ p.managerStep.loopEnds = p.loopEnds := by
  unfold managerStep
  repeat' split
  all_goals exact ⟨rfl, rfl⟩

/-- Every way a step of `main` can end. -/
inductive MainMove (p : MainProcess N M) : MainProcess N M → Prop
  | wait (hjoin : p.main = some .joinIngester) (hreceiving : ¬ p.ingesterReturned = true) :
      MainMove p p
  | pass (hjoin : p.main = some .joinIngester) (hreturned : p.ingesterReturned = true) :
      MainMove p { p with main := some .stopBooks }
  | stop (hstop : p.main = some .stopBooks) :
      MainMove p { p with running := false, main := some .joinBooks }
  | waitBooks (hjoin : p.main = some .joinBooks) : MainMove p p
  | finish (hjoin : p.main = some .joinBooks) : MainMove p { p with main := none }
  | ended (hended : p.main = none) : MainMove p p

omit [NeZero N] [NeZero M] in
theorem mainStep_spec (p : MainProcess N M) : MainMove p p.mainStep := by
  unfold mainStep
  split
  · split
    · exact .pass ‹_› ‹_›
    · exact .wait ‹_› ‹_›
  · exact .stop ‹_›
  · split
    · exact .finish ‹_›
    · exact .waitBooks ‹_›
  · exact .ended ‹_›

omit [NeZero N] [NeZero M] in
theorem mainStep_frame (p : MainProcess N M) :
    p.mainStep.feed = p.feed ∧ p.mainStep.ingesterReturned = p.ingesterReturned ∧
      p.mainStep.loopEnds = p.loopEnds := by
  have hmove := mainStep_spec p
  generalize p.mainStep = q at hmove
  cases hmove <;> exact ⟨rfl, rfl, rfl⟩

theorem step_loopEnds (p : MainProcess N M) (t : MainThread) :
    (p.step t).loopEnds = p.loopEnds := by
  cases t with
  | ingester =>
    change p.ingesterStep.loopEnds = _
    unfold ingesterStep
    split
    · rfl
    · rfl
  | manager => exact (managerStep_ingester p).2
  | main => exact (mainStep_frame p).2.2

/-! ### A loop that does not end -/

/-- As long as the receive loop does not end, `main` waits for it. -/
structure Waiting (p : MainProcess N M) : Prop where
  endless : p.loopEnds = false
  receiving : p.ingesterReturned = false
  joining : p.main = some .joinIngester

theorem Waiting.step (h : Waiting p) (t : MainThread) : Waiting (p.step t) := by
  refine ⟨(step_loopEnds p t).trans h.endless, ?_, ?_⟩
  · cases t with
    | ingester =>
      change p.ingesterStep.ingesterReturned = false
      unfold ingesterStep
      split
      · exact h.endless
      · exact h.receiving
    | manager => exact (managerStep_ingester p).1.trans h.receiving
    | main => exact (mainStep_frame p).2.1.trans h.receiving
  · cases t with
    | ingester => exact (ingesterStep_frame p).1.trans h.joining
    | manager => exact (managerStep_main p).trans h.joining
    | main =>
      change p.mainStep.main = _
      unfold mainStep
      rw [h.joining, h.receiving]
      exact h.joining

omit [NeZero M] in
theorem launch_of_result {tests : ℕ} {r : WebSocket × List MarketUpdate}
    (h : c.result tests = some r) :
    (launch default c tests o : MainProcess N M) = start default r.2 true o := by
  unfold launch
  rw [h]

/-- If `main` has come past its first join, the call of `startReceiving` has returned. -/
theorem result_of_passed {tests n : ℕ}
    (h : (states step (launch default c tests o : MainProcess N M) schedule n).main ≠
      some .joinIngester) : ∃ r, c.result tests = some r := by
  cases hresult : c.result tests with
  | some r => exact ⟨r, rfl⟩
  | none =>
    have hlaunch : Waiting (launch default c tests o : MainProcess N M) := by
      unfold launch
      rw [hresult]
      exact ⟨rfl, rfl, rfl⟩
    have hwaiting : Waiting (states step (launch default c tests o : MainProcess N M) schedule n) :=
      states_preserves (n := 0) (fun _ t hp => hp.step t) (Nat.zero_le n) hlaunch
    exact absurd hwaiting.joining h

/-! ### Until the ingester returns -/

/-- The loop of the ingester ends. -/
structure Ending (arrivals : List MarketUpdate) (o : OrderBookManager M)
    (p : MainProcess N M) : Prop extends Kept arrivals o p where
  ends : p.loopEnds = true

theorem Ending.step (h : Ending arrivals o p) (t : MainThread) : Ending arrivals o (p.step t) :=
  ⟨h.toKept.step t, (step_loopEnds p t).trans h.ends⟩

/-- The steps of the ingester until it returns. -/
def toReturn (p : MainProcess N M) : ℕ :=
  if p.ingesterReturned then 0 else (p.feed.channels ⟨0, Nat.one_pos⟩).toSend + 1

omit [NeZero N] [NeZero M] in
theorem toReturn_eq_zero_iff (p : MainProcess N M) :
    p.toReturn = 0 ↔ p.ingesterReturned = true := by
  unfold toReturn
  split
  · rename_i hreturned
    exact iff_of_true rfl hreturned
  · rename_i hreceiving
    exact iff_of_false (Nat.succ_ne_zero _) hreceiving

theorem Ending.returned_step (h : Ending arrivals o p) (hreturned : p.ingesterReturned = true)
    (t : MainThread) : (p.step t).ingesterReturned = true := by
  cases t with
  | ingester =>
    change p.ingesterStep.ingesterReturned = true
    unfold ingesterStep
    split
    · exact h.ends
    · exact hreturned
  | manager => exact (managerStep_ingester p).1.trans hreturned
  | main => exact (mainStep_frame p).2.1.trans hreturned

theorem Kept.toSend_managerStep_le (h : Kept arrivals o p) :
    (p.managerStep.feed.channels 0).toSend ≤ (p.feed.channels 0).toSend := by
  unfold MainProcess.managerStep
  split
  · exact Nat.le_refl _
  · split
    · exact Nat.le_refl _
    · exact Nat.le_refl _
  · exact h.serving.toSend_step_le 0 .consume
  · exact Nat.le_refl _

omit [NeZero N] [NeZero M] in
theorem toReturn_le {q : MainProcess N M} (hreturned : q.ingesterReturned = p.ingesterReturned)
    (hsend : (q.feed.channels 0).toSend ≤ (p.feed.channels 0).toSend) :
    q.toReturn ≤ p.toReturn := by
  unfold toReturn
  rw [hreturned]
  split
  · exact Nat.le_refl _
  · exact Nat.succ_le_succ hsend

theorem Ending.toReturn_ingester_lt (h : Ending arrivals o p) (hleft : p.toReturn ≠ 0) :
    (p.step .ingester).toReturn < p.toReturn := by
  have hreceiving : p.ingesterReturned = false :=
    Bool.eq_false_of_not_eq_true (mt (toReturn_eq_zero_iff p).mpr hleft)
  change p.ingesterStep.toReturn < _
  unfold ingesterStep
  split
  · unfold toReturn
    rw [h.ends, hreceiving]
    exact Nat.succ_pos _
  · rename_i hpending
    have hsend : (p.feed.channels 0).toSend ≠ 0 := by
      intro hzero
      have hnone := Channel.pending_of_toSend hzero
      change (p.feed.channels 0).pending = _ at hpending
      rw [hnone] at hpending
      contradiction
    have hlt := h.serving.toSend_produce_lt 0 hsend
    unfold toReturn
    rw [hreceiving]
    exact Nat.succ_lt_succ hlt

theorem Ending.toReturn_step_le (h : Ending arrivals o p) (t : MainThread) :
    (p.step t).toReturn ≤ p.toReturn := by
  cases t with
  | ingester =>
    by_cases hleft : p.toReturn = 0
    · have hreturned := h.returned_step ((toReturn_eq_zero_iff p).mp hleft) .ingester
      rw [(toReturn_eq_zero_iff _).mpr hreturned]
      exact Nat.zero_le _
    · exact (h.toReturn_ingester_lt hleft).le
  | manager => exact toReturn_le (managerStep_ingester p).1 h.toSend_managerStep_le
  | main =>
    refine toReturn_le (mainStep_frame p).2.1 ?_
    change (p.mainStep.feed.channels 0).toSend ≤ _
    rw [(mainStep_frame p).1]

/-! ### Until main clears the flag -/

/-- The steps of `main` until it has cleared the flag, once the ingester has returned. -/
def toStop (p : MainProcess N M) : ℕ :=
  match p.main with
  | some .joinIngester => 2
  | some .stopBooks => 1
  | _ => 0

omit [NeZero N] [NeZero M] in
theorem toStop_congr {q : MainProcess N M} (hmain : q.main = p.main) : q.toStop = p.toStop := by
  unfold toStop
  rw [hmain]

/-- A step that uses up the measure is the one that clears the flag. -/
theorem stop_of_toStop_step (hleft : p.toStop ≠ 0) {t : MainThread}
    (hzero : (p.step t).toStop = 0) : t = .main ∧ p.main = some .stopBooks := by
  cases t with
  | ingester => exact absurd ((toStop_congr (ingesterStep_frame p).1).symm.trans hzero) hleft
  | manager => exact absurd ((toStop_congr (managerStep_main p)).symm.trans hzero) hleft
  | main =>
    have hmove := mainStep_spec p
    change p.mainStep.toStop = 0 at hzero
    generalize p.mainStep = q at hmove hzero
    cases hmove with
    | pass _ _ => exact absurd hzero Nat.one_ne_zero
    | stop hstop => exact ⟨rfl, hstop⟩
    | finish hjoin => exact absurd (by rw [toStop, hjoin]) hleft
    | wait => exact absurd hzero hleft
    | waitBooks => exact absurd hzero hleft
    | ended => exact absurd hzero hleft

theorem toStop_step_le (p : MainProcess N M) (t : MainThread) : (p.step t).toStop ≤ p.toStop := by
  cases t with
  | ingester => exact (toStop_congr (ingesterStep_frame p).1).le
  | manager => exact (toStop_congr (managerStep_main p)).le
  | main =>
    have hmove := mainStep_spec p
    change p.mainStep.toStop ≤ _
    generalize p.mainStep = q at hmove
    cases hmove with
    | pass hjoin _ =>
      rw [toStop, toStop, hjoin]
      exact Nat.le_succ 1
    | stop _ => exact Nat.zero_le _
    | finish _ => exact Nat.zero_le _
    | wait => exact Nat.le_refl _
    | waitBooks => exact Nat.le_refl _
    | ended => exact Nat.le_refl _

theorem toStop_main_lt (hreturned : p.ingesterReturned = true) (hleft : p.toStop ≠ 0) :
    (p.step .main).toStop < p.toStop := by
  have hmove := mainStep_spec p
  change p.mainStep.toStop < _
  generalize p.mainStep = q at hmove
  cases hmove with
  | wait _ hreceiving => exact absurd hreturned hreceiving
  | pass hjoin _ =>
    rw [toStop, toStop, hjoin]
    exact Nat.lt_succ_self 1
  | stop hstop =>
    rw [toStop, toStop, hstop]
    exact Nat.one_pos
  | waitBooks hjoin => exact absurd (by rw [toStop, hjoin]) hleft
  | finish hjoin => exact absurd (by rw [toStop, hjoin]) hleft
  | ended hended => exact absurd (by rw [toStop, hended]) hleft

/-! ### Fair schedules -/

/-- `main` comes to clear the flag. -/
theorem exists_stop (hfair : Fair schedule) (h : Ending arrivals o p) (hstart : p.toStop ≠ 0) :
    ∃ n, schedule n = .main ∧ (states step p schedule n).main = some .stopBooks := by
  obtain ⟨n, -, hn, hreturn⟩ := hfair.measure_eq_zero .ingester toReturn (fun _ t hp => hp.step t)
    (fun _ t hp => hp.toReturn_step_le t) (fun _ hp => hp.toReturn_ingester_lt)
    (n := 0) (s := p) h
  obtain ⟨m, -, -, hstop⟩ := hfair.measure_eq_zero .main toStop
    (P := fun q : MainProcess N M => Ending arrivals o q ∧ q.ingesterReturned = true)
    (fun _ t hp => ⟨hp.1.step t, hp.1.returned_step hp.2 t⟩) (fun q t _ => toStop_step_le q t)
    (fun _ hp => toStop_main_lt hp.2) ⟨hn, (toReturn_eq_zero_iff _).mp hreturn⟩
  clear hreturn hn n
  induction m with
  | zero => exact absurd hstop hstart
  | succ m ih =>
    by_cases hleft : (states step p schedule m).toStop = 0
    · exact ih hleft
    · exact ⟨m, stop_of_toStop_step hleft hstop⟩

/-- A stop that is seen lets `main` return. -/
theorem exists_ended (hfair : Fair schedule) {n : ℕ}
    (h : StopSeen arrivals o (states step p schedule n)) :
    ∃ m, (states step p schedule m).main = none := by
  obtain ⟨m, -, hm, hleft⟩ := hfair.measure_eq_zero .manager left (fun _ t hp => hp.step t)
    (fun _ t hp => hp.left_step_le t) (fun _ hp => hp.left_manager_lt) h
  obtain ⟨k, hmk, hmain⟩ := hfair .main m
  have hk : StopSeen arrivals o (states step p schedule k) ∧
      (states step p schedule k).manager = .returned :=
    states_preserves
      (P := fun q : MainProcess N M => StopSeen arrivals o q ∧ q.manager = .returned)
      (fun _ t hp => ⟨hp.1.step t, hp.1.returned_step hp.2 t⟩) hmk ⟨hm, hm.returned_of_left hleft⟩
  refine ⟨k + 1, ?_⟩
  rw [states, hmain]
  exact hk.1.ended hk.2

/-- Under a fair schedule `main` returns exactly if the call of `startReceiving` does and the
manager thread has begun when it is stopped. -/
theorem shutsDown_iff_returns (hfair : Fair schedule) :
    ShutsDown N default c o schedule ↔
      (∃ tests, (c.result tests).isSome = true) ∧ StopsBegun N default c o schedule := by
  constructor
  · rintro ⟨tests, n, hended⟩
    obtain ⟨r, hr⟩ := result_of_passed (o := o) (by rw [hended]; exact (Option.some_ne_none _).symm)
    refine ⟨⟨tests, by rw [hr]; rfl⟩, fun tests' m hmain hstop hlaunched => ?_⟩
    obtain ⟨r', hr'⟩ := result_of_passed (by rw [hstop]; decide)
    obtain rfl := ReceiveCall.result_unique hr hr'
    rw [launch_of_result hr] at hended
    rw [launch_of_result hr'] at hstop hlaunched
    have hlost : StopLost (states step (start default r.2 true o : MainProcess N M) schedule
        (m + 1)) := by
      rw [states, hmain]
      exact stopLost_of_launched hstop hlaunched
    rcases Nat.lt_or_ge m n with hlt | hge
    · have hstill := states_preserves (P := fun q : MainProcess N M => StopLost q)
        (fun _ t hp => hp.step t) hlt hlost
      exact nomatch hended.symm.trans hstill.joining
    · have hdone := states_preserves (P := fun q : MainProcess N M => q.main = none)
        (fun _ t hp => ended_step hp t) hge hended
      exact nomatch hdone.symm.trans hstop
  · rintro ⟨⟨tests, hsome⟩, hbegun⟩
    obtain ⟨r, hr⟩ := Option.isSome_iff_exists.mp hsome
    have hbegun' := hbegun tests
    rw [launch_of_result hr] at hbegun'
    have hstart : Ending r.2 o (start default r.2 true o : MainProcess N M) :=
      ⟨.start default r.2 true o, rfl⟩
    obtain ⟨n, hmain, hstop⟩ := exists_stop hfair hstart (Nat.succ_ne_zero 1)
    have hkept : Ending r.2 o
        (states step (start default r.2 true o : MainProcess N M) schedule n) :=
      states_preserves (n := 0) (fun _ t hp => hp.step t) (Nat.zero_le n) hstart
    have hseen : StopSeen r.2 o (states step (start default r.2 true o : MainProcess N M) schedule
        (n + 1)) := by
      rw [states, hmain]
      exact hkept.toKept.stopSeen hstop (hbegun' n hmain hstop)
    obtain ⟨m, hended⟩ := exists_ended hfair hseen
    exact ⟨tests, m, by rw [launch_of_result hr]; exact hended⟩

/-- Nobody clears the flag of the ingester. Then the receive loop ends exactly if the connection
fails or the server does not upgrade it, and the program shuts down exactly if also the manager
thread has begun when `main` comes to stop it. What the stream holds behind the handshake, and that
it ends, plays no part. -/
theorem shutsDown_iff (parser : SBEVenueParser) (tsc : ℕ → ℕ → UInt64) (connects : Bool)
    (texts : WebSocket.HandshakeTexts) (path protocol stream : List UInt8) (chunks : ℕ → ℕ)
    (recvBuf : ByteMemory.Memory) (rand : ℕ → Fin 4 → UInt8) (default : MarketUpdate)
    (o : OrderBookManager M) {schedule : ℕ → MainThread} (hfair : Fair schedule) :
    let c : ReceiveCall := ⟨parser, fun _ => true, tsc, connects, texts, path, protocol,
      WebSocket.connected stream chunks recvBuf rand⟩
    ((∃ tests, (c.result tests).isSome = true) ↔
        ¬ (connects = true ∧ Upgraded chunks stream)) ∧
      (ShutsDown N default c o schedule ↔
        ¬ (connects = true ∧ Upgraded chunks stream) ∧ StopsBegun N default c o schedule) := by
  intro c
  have hreturns : (∃ tests, (c.result tests).isSome = true) ↔
      ¬ (connects = true ∧ Upgraded chunks stream) := by
    rw [ReceiveCall.returns_iff rfl]
    exact or_iff_left (fun ⟨_, hcleared⟩ => Bool.false_ne_true hcleared.symm)
  exact ⟨hreturns, (shutsDown_iff_returns hfair).trans (and_congr_left' hreturns)⟩

/-- A turn for each thread in the order manager, ingester, `main`. -/
def inTurn (n : ℕ) : MainThread :=
  if n % 3 = 0 then .manager else if n % 3 = 1 then .ingester else .main

theorem inTurn_fair : Fair inTurn := by
  intro t n
  cases t with
  | manager => exact ⟨3 * n, by omega, by simp [inTurn]⟩
  | ingester => exact ⟨3 * n + 1, by omega, by simp [inTurn, Nat.add_mod]⟩
  | main => exact ⟨3 * n + 2, by omega, by simp [inTurn, Nat.add_mod]⟩

theorem begun_managerStep (p : MainProcess N M) : p.managerStep.manager ≠ .launched := by
  unfold managerStep
  split
  · rintro ⟨⟩
  · split
    · rintro ⟨⟩
    · rintro ⟨⟩
  · dsimp only
    split
    · rintro ⟨⟩
    · rintro ⟨⟩
  · rename_i hreturned
    rw [hreturned]
    rintro ⟨⟩

theorem begun_step (hbegun : p.manager ≠ .launched) (t : MainThread) :
    (p.step t).manager ≠ .launched := by
  cases t with
  | ingester => exact (ingesterStep_frame p).2.1 ▸ hbegun
  | manager => exact begun_managerStep p
  | main =>
    have hmove := mainStep_spec p
    change p.mainStep.manager ≠ _
    generalize p.mainStep = q at hmove
    cases hmove <;> exact hbegun

/-- The manager thread takes the first turn. -/
theorem stopsBegun_inTurn : StopsBegun N default c o inTurn := by
  intro tests n hmain _
  have hn : 1 ≤ n := by
    by_contra hzero
    obtain rfl : n = 0 := by omega
    exact nomatch hmain
  exact states_preserves (P := fun q : MainProcess N M => q.manager ≠ .launched)
    (fun _ t hq => begun_step hq t) hn (begun_managerStep _)

end Endless

/-- The connection fails, and the threads take turns. -/
theorem shutsDown_iff_failed_connection :
    ShutsDown 2 (.new 0 .invalid 0 0 0 0 0)
      ⟨MarketDataIngester.sampleParser, fun _ => true, fun _ _ => 0, false, ⟨[], [], []⟩, [47], [],
        WebSocket.connected [] (fun _ => 2047) (fun _ => 0) (fun _ _ => 0)⟩
      (.registered [7] : OrderBookManager 4) inTurn :=
  (shutsDown_iff MarketDataIngester.sampleParser (fun _ _ => 0) false ⟨[], [], []⟩ [47] [] []
    (fun _ => 2047) (fun _ => 0) (fun _ _ => 0) (.new 0 .invalid 0 0 0 0 0) (.registered [7])
    inTurn_fair).2.mpr ⟨by decide, stopsBegun_inTurn⟩

/-- A server that upgrades the connection and then closes it. -/
theorem upgraded_then_closed_never_shutsDown :
    Fair inTurn ∧ ¬ ShutsDown 2 (.new 0 .invalid 0 0 0 0 0)
      ⟨MarketDataIngester.sampleParser, fun _ => true, fun _ _ => 0, true, ⟨[], [], []⟩, [47], [],
        WebSocket.connected WebSocket.switchingProtocols.bytes (fun _ => 2047) (fun _ => 0)
          (fun _ _ => 0)⟩
      (.registered [7] : OrderBookManager 4) inTurn := by
  refine ⟨inTurn_fair, fun hshuts => ?_⟩
  have hreturns := ((shutsDown_iff_returns inTurn_fair).mp hshuts).1
  rw [ReceiveCall.returns_iff rfl] at hreturns
  rcases hreturns with hfails | ⟨_, hcleared⟩
  · exact hfails ⟨rfl, by decide +kernel⟩
  · exact Bool.false_ne_true hcleared.symm

end HftSystem.MainProcess
