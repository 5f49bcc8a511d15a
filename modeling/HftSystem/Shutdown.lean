import HftSystem.MarketDataIngester

/-!
The end of the receive loop. The loop tests a flag that only another thread clears; a
failed read does not leave it. So the call returns exactly when the connection or the
handshake fails, or some test finds the flag cleared.
-/
namespace HftSystem.MarketDataIngester

open ByteMemory WebSocket

/-! ### The loop with its condition -/

/-- The loop of `startReceiving` for a number of tests of its condition: nothing if it has not
ended by then. `running k` is the flag at the k-th test. -/
def receiveWhile (parser : SBEVenueParser) : (tests : ℕ) → (running : ℕ → Bool) →
    (tsc : ℕ → ℕ → UInt64) → WebSocket → Option (WebSocket × List MarketUpdate)
  | 0, _, _, _ => none
  | tests + 1, running, tsc, ws =>
    if running 0 then
      match ws.readFrame with
      | (ws, none) => receiveWhile parser tests (fun k => running (k + 1)) tsc ws
      | (ws, some frame) =>
        if frame.opcode = 0x2 then
          let us := parser.parse (tsc 0) frame.payload
          (receiveWhile parser tests (fun k => running (k + 1)) (fun n => tsc (n + 1)) ws).map
            (fun (ws, more) => (ws, us ++ more))
        else receiveWhile parser tests (fun k => running (k + 1)) tsc ws
    else some (ws, [])

/-- `startReceiving` with the result of connecting the transport: nothing if it has not returned
after the given number of tests. -/
def startReceivingWhile (parser : SBEVenueParser) (tests : ℕ) (running : ℕ → Bool)
    (tsc : ℕ → ℕ → UInt64) (connects : Bool) (texts : HandshakeTexts) (path protocol : List UInt8)
    (ws : WebSocket) : Option (WebSocket × List MarketUpdate) :=
  if connects then
    match ws.performHandshake texts path protocol with
    | (ws, false) => some (ws, [])
    | (ws, true) => receiveWhile parser tests running tsc ws
  else some (ws, [])

/-- A call of `startReceiving`: what it works with, the result of connecting the transport, and the
flag at each test of the loop. -/
structure ReceiveCall where
  parser : SBEVenueParser
  running : ℕ → Bool
  tsc : ℕ → ℕ → UInt64
  connects : Bool
  texts : HandshakeTexts
  path : List UInt8
  protocol : List UInt8
  ws : WebSocket

/-- The result of the call, if it has returned after the given number of tests. -/
def ReceiveCall.result (c : ReceiveCall) (tests : ℕ) : Option (WebSocket × List MarketUpdate) :=
  startReceivingWhile c.parser tests c.running c.tsc c.connects c.texts c.path c.protocol c.ws

/-! ### What ends the loop -/

section Loop

variable (parser : SBEVenueParser)

/-- While the flag is set the loop goes on, whatever is read. -/
theorem receiveWhile_running {running : ℕ → Bool} {tests : ℕ} (hrun : ∀ k < tests, running k = true)
    (tsc : ℕ → ℕ → UInt64) (ws : WebSocket) :
    receiveWhile parser tests running tsc ws = none := by
  induction tests generalizing running tsc ws with
  | zero => rfl
  | succ tests ih =>
    have hrest : ∀ k < tests, running (k + 1) = true := fun k hk => hrun (k + 1) (by omega)
    rw [receiveWhile, if_pos (hrun 0 (Nat.succ_pos _))]
    split
    · exact ih hrest _ _
    · split
      · rw [ih hrest, Option.map_none]
      · exact ih hrest _ _

/-- The first test that finds the flag cleared ends the loop, with what it has done by then. -/
theorem receiveWhile_stopped {running : ℕ → Bool} {k tests : ℕ} (hk : k < tests)
    (hrun : ∀ j < k, running j = true) (hstop : running k = false) (tsc : ℕ → ℕ → UInt64)
    (ws : WebSocket) :
    receiveWhile parser tests running tsc ws = some (receiveLoop parser k tsc ws) := by
  induction k generalizing running tests tsc ws with
  | zero =>
    obtain ⟨tests, rfl⟩ : ∃ n, tests = n + 1 := ⟨tests - 1, by omega⟩
    rw [receiveWhile, hstop]
    rfl
  | succ k ih =>
    obtain ⟨tests, rfl⟩ : ∃ n, tests = n + 1 := ⟨tests - 1, by omega⟩
    have hrest : ∀ tsc ws, receiveWhile parser tests (fun j => running (j + 1)) tsc ws =
        some (receiveLoop parser k tsc ws) :=
      ih (Nat.lt_of_succ_lt_succ hk) (fun j hj => hrun (j + 1) (by omega)) hstop
    rw [receiveWhile, receiveLoop, if_pos (hrun 0 (Nat.succ_pos _))]
    obtain ⟨ws', frame⟩ := ws.readFrame
    cases frame with
    | none => exact hrest _ _
    | some frame =>
      dsimp only
      split
      · rw [hrest, Option.map_some]
      · exact hrest _ _

/-- A loop that has ended has done so at the first test that found the flag cleared. -/
theorem receiveWhile_eq_some {running : ℕ → Bool} {tests : ℕ} {tsc : ℕ → ℕ → UInt64}
    {ws : WebSocket} {r : WebSocket × List MarketUpdate}
    (h : receiveWhile parser tests running tsc ws = some r) :
    ∃ k, (∀ j < k, running j = true) ∧ running k = false ∧ r = receiveLoop parser k tsc ws := by
  have hcleared : ∃ k, k < tests ∧ running k = false := by
    by_contra hnone
    rw [receiveWhile_running parser (fun k hk => Bool.eq_true_of_not_eq_false
      (fun hstop => hnone ⟨k, hk, hstop⟩))] at h
    contradiction
  obtain ⟨hk, hstop⟩ := Nat.find_spec hcleared
  have hrun : ∀ j < Nat.find hcleared, running j = true := fun j hj =>
    Bool.eq_true_of_not_eq_false (fun hj' => Nat.find_min hcleared hj ⟨hj.trans hk, hj'⟩)
  rw [receiveWhile_stopped parser hk hrun hstop] at h
  exact ⟨_, hrun, hstop, (Option.some.inj h).symm⟩

/-- However often the condition is tested, the loop has one result. -/
theorem receiveWhile_unique {running : ℕ → Bool} {tests tests' : ℕ} {tsc : ℕ → ℕ → UInt64}
    {ws : WebSocket} {r r' : WebSocket × List MarketUpdate}
    (h : receiveWhile parser tests running tsc ws = some r)
    (h' : receiveWhile parser tests' running tsc ws = some r') : r = r' := by
  obtain ⟨k, hrun, hstop, rfl⟩ := receiveWhile_eq_some parser h
  obtain ⟨k', hrun', hstop', rfl⟩ := receiveWhile_eq_some parser h'
  rcases lt_trichotomy k k' with hlt | rfl | hlt
  · exact absurd (hstop.symm.trans (hrun' k hlt)) Bool.false_ne_true
  · rfl
  · exact absurd (hstop'.symm.trans (hrun k' hlt)) Bool.false_ne_true

theorem receiveWhile_returns_iff (running : ℕ → Bool) (tsc : ℕ → ℕ → UInt64) (ws : WebSocket) :
    (∃ tests, (receiveWhile parser tests running tsc ws).isSome = true) ↔
      ∃ k, running k = false := by
  constructor
  · rintro ⟨tests, hsome⟩
    obtain ⟨r, hr⟩ := Option.isSome_iff_exists.mp hsome
    obtain ⟨k, -, hstop, -⟩ := receiveWhile_eq_some parser hr
    exact ⟨k, hstop⟩
  · intro hcleared
    have hrun : ∀ j < Nat.find hcleared, running j = true := fun j hj =>
      Bool.eq_true_of_not_eq_false (Nat.find_min hcleared hj)
    refine ⟨Nat.find hcleared + 1, ?_⟩
    rw [receiveWhile_stopped parser (Nat.lt_succ_self _) hrun (Nat.find_spec hcleared)]
    rfl

end Loop

/-! ### When the call returns -/

/-- The call of `recv` in the handshake returns a text with both marks of an upgrade. -/
def Upgraded (chunks : ℕ → ℕ) (stream : List UInt8) : Prop :=
  accepts (cString (stream.take (firstPiece chunks stream))) = true

instance (chunks : ℕ → ℕ) (stream : List UInt8) : Decidable (Upgraded chunks stream) :=
  inferInstanceAs (Decidable (_ = _))

theorem performHandshake_eq_true_iff (stream : List UInt8) (chunks : ℕ → ℕ) (recvBuf : Memory)
    (rand : ℕ → Fin 4 → UInt8) (texts : HandshakeTexts) (path protocol : List UInt8) :
    ((connected stream chunks recvBuf rand).performHandshake texts path protocol).2 = true ↔
      Upgraded chunks stream := by
  rw [(performHandshake_stream stream chunks recvBuf rand texts path protocol).1, Upgraded]
  split
  · rename_i hnil
    rw [hnil]
    decide
  · rfl

namespace ReceiveCall

variable {c : ReceiveCall} {tests tests' : ℕ} {r r' : WebSocket × List MarketUpdate}

theorem result_unique (h : c.result tests = some r) (h' : c.result tests' = some r') : r = r' := by
  unfold result startReceivingWhile at h h'
  split at h
  · rename_i hconnects
    rw [if_pos hconnects] at h'
    generalize c.ws.performHandshake c.texts c.path c.protocol = after at h h'
    obtain ⟨ws, ok⟩ := after
    cases ok with
    | false => exact Option.some.inj (h.symm.trans h')
    | true => exact receiveWhile_unique _ h h'
  · rename_i hconnects
    rw [if_neg hconnects] at h'
    exact Option.some.inj (h.symm.trans h')

/-- What the stream holds behind the handshake, and that it ends, plays no part. -/
theorem returns_iff {stream : List UInt8} {chunks : ℕ → ℕ} {recvBuf : Memory}
    {rand : ℕ → Fin 4 → UInt8} (hws : c.ws = connected stream chunks recvBuf rand) :
    (∃ tests, (c.result tests).isSome = true) ↔
      ¬ (c.connects = true ∧ Upgraded chunks stream) ∨ ∃ k, c.running k = false := by
  have hshake := performHandshake_eq_true_iff stream chunks recvBuf rand c.texts c.path c.protocol
  unfold result startReceivingWhile
  rw [hws]
  generalize (connected stream chunks recvBuf rand).performHandshake c.texts c.path c.protocol =
    after at hshake
  obtain ⟨ws, ok⟩ := after
  by_cases hconnects : c.connects = true
  · simp only [hconnects, true_and, ← hshake]
    cases ok with
    | false => exact iff_of_true ⟨0, rfl⟩ (Or.inl Bool.false_ne_true)
    | true =>
      rw [or_iff_right (not_not.mpr rfl)]
      exact receiveWhile_returns_iff _ _ _ _
  · simp only [if_neg hconnects]
    exact iff_of_true ⟨0, rfl⟩ (Or.inl fun h => hconnects h.1)

end ReceiveCall

end HftSystem.MarketDataIngester
