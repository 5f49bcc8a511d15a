import HftSystem.SbeWire

/-!
Messages of symbols that the registry does not know. The decoder reports them
like truncated ones, and the parser gives up the rest of the frame. Their deletion
goes unnoticed exactly when no update stands behind them.
-/
namespace HftSystem.SbeWire

open ByteWords SbeDecoder

variable (registry : VenueRegistry) (venueName : List UInt8)

/-! ### Registered and foreign messages -/

def DepthMessage.registered (m : DepthMessage) : Bool :=
  match registry.lookup venueName m.symbol.name with
  | .ok _ => true
  | .error _ => false

/-- A depth message whose symbol is not registered for the venue. -/
def Message.foreign : Message → Bool
  | .depth m => !m.registered registry venueName
  | .bestBidAsk _ => false
  | .trades _ => false

/-- A registered depth message with a level. -/
def Message.fruitful : Message → Bool
  | .depth m => m.registered registry venueName && (m.bids.levels ≠ [] || m.asks.levels ≠ [])
  | .bestBidAsk _ => false
  | .trades _ => false

def withoutForeign (ms : List Message) : List Message :=
  ms.filter (fun m => !m.foreign registry venueName)

variable {registry venueName}

theorem DepthMessage.registered_iff (m : DepthMessage) :
    m.registered registry venueName = true ↔
      ∃ id, registry.lookup venueName m.symbol.name = .ok id := by
  unfold registered
  cases registry.lookup venueName m.symbol.name with
  | ok id => simp
  | error e => simp

/-! ### The parser at a foreign message -/

theorem DepthMessage.decode_foreign {m : DepthMessage} (rest : List UInt8)
    (hforeign : m.registered registry venueName = false) (recvTsc : UInt64) :
    decode (m.encode ++ rest) m.kind.schema registry venueName recvTsc = (0, []) := by
  have hspec := decode_spec (m.encode ++ rest) m.kind.schema registry venueName recvTsc
  generalize decode (m.encode ++ rest) m.kind.schema registry venueName recvTsc = result at hspec
  cases hspec with
  | short _ => rfl
  | unknown _ _ => rfl
  | decoded _ _ hlookup _ =>
    rw [(m.scan_symbol rest).2] at hlookup
    have hregistered := m.registered_iff.mpr ⟨_, hlookup⟩
    rw [hforeign] at hregistered
    cases hregistered

/-- A foreign message ends the frame. -/
theorem parse_foreign {m : DepthMessage} (hforeign : m.registered registry venueName = false)
    (tsc : ℕ → UInt64) (rest : List UInt8) :
    (binanceParser registry venueName).parse tsc (m.encode ++ rest) = [] := by
  have hlength : 4 ≤ (m.encode ++ rest).length := by
    have := m.four_le_length rest
    rw [List.length_append]
    omega
  refine SBEVenueParser.parse_stop hlength (m.lookup_schema rest) ?_
  rw [m.handle_eq_decode]
  exact m.decode_foreign rest hforeign (tsc 0)

theorem DepthMessage.updates_eq_nil_iff (m : DepthMessage) (instrumentId : UInt32)
    (recvTsc : UInt64) :
    m.updates instrumentId recvTsc = [] ↔ m.bids.levels = [] ∧ m.asks.levels = [] := by
  simp [updates, LevelGroup.updates]

/-! ### Deleting the foreign messages -/

theorem withoutForeign_cons (m : Message) (ms : List Message) :
    withoutForeign registry venueName (m :: ms) =
      if m.foreign registry venueName then withoutForeign registry venueName ms
      else m :: withoutForeign registry venueName ms := by
  unfold withoutForeign
  rw [List.filter_cons]
  cases m.foreign registry venueName <;> rfl

/-- What is left enqueues nothing exactly when no message has an update to give. -/
theorem parse_withoutForeign_eq_nil_iff (ms : List Message) (tsc : ℕ → UInt64) :
    (binanceParser registry venueName).parse tsc
        ((withoutForeign registry venueName ms).flatMap Message.encode) = [] ↔
      ∀ m ∈ ms, m.fruitful registry venueName = false := by
  induction ms generalizing tsc with
  | nil =>
    refine iff_of_true ?_ (by simp)
    rw [SBEVenueParser.parse, SBEVenueParser.parseFrom]
    rfl
  | cons m ms ih =>
    rw [withoutForeign_cons, List.forall_mem_cons]
    cases m with
    | depth m =>
      cases hm : m.registered registry venueName with
      | false =>
        have hforeign : (Message.depth m).foreign registry venueName = true := by
          rw [Message.foreign, hm]
          rfl
        have hfruit : (Message.depth m).fruitful registry venueName = false := by
          rw [Message.fruitful, hm]
          rfl
        rw [if_pos hforeign, and_iff_right hfruit, ih]
      | true =>
        obtain ⟨id, hid⟩ := m.registered_iff.mp hm
        have hforeign : (Message.depth m).foreign registry venueName = false := by
          rw [Message.foreign, hm]
          rfl
        have hfruit : (Message.depth m).fruitful registry venueName = false ↔
            m.bids.levels = [] ∧ m.asks.levels = [] := by
          rw [Message.fruitful, hm]
          simp
        rw [hforeign, if_neg Bool.false_ne_true, List.flatMap_cons, Message.encode,
          parse_depth m hid, List.append_eq_nil_iff, m.updates_eq_nil_iff, hfruit, ih]
    | bestBidAsk m =>
      have hforeign : (Message.bestBidAsk m).foreign registry venueName = false := rfl
      have hfruit : (Message.bestBidAsk m).fruitful registry venueName = false := rfl
      rw [hforeign, if_neg Bool.false_ne_true, and_iff_right hfruit, List.flatMap_cons,
        Message.encode, parse_bestBidAsk, ih]
    | trades m =>
      have hforeign : (Message.trades m).foreign registry venueName = false := rfl
      have hfruit : (Message.trades m).fruitful registry venueName = false := rfl
      rw [hforeign, if_neg Bool.false_ne_true, and_iff_right hfruit, List.flatMap_cons,
        Message.encode, parse_trades, ih]

/-- Deleting the foreign messages changes nothing exactly when no registered message with a
level follows a foreign one. -/
theorem parse_withoutForeign_iff (ms : List Message) (tsc : ℕ → UInt64) :
    (binanceParser registry venueName).parse tsc (ms.flatMap Message.encode) =
        (binanceParser registry venueName).parse tsc
          ((withoutForeign registry venueName ms).flatMap Message.encode) ↔
      ms.Pairwise (fun m m' => m.foreign registry venueName = true →
        m'.fruitful registry venueName = false) := by
  induction ms generalizing tsc with
  | nil => exact iff_of_true rfl List.Pairwise.nil
  | cons m ms ih =>
    rw [withoutForeign_cons, List.pairwise_cons, List.flatMap_cons]
    cases hm : m.foreign registry venueName with
    | true =>
      have hnil : (binanceParser registry venueName).parse tsc
          (m.encode ++ ms.flatMap Message.encode) = [] := by
        cases m with
        | depth m =>
          refine parse_foreign ?_ tsc _
          rw [Message.foreign] at hm
          simpa using hm
        | bestBidAsk m => cases hm
        | trades m => cases hm
      rw [if_pos rfl, hnil, eq_comm, parse_withoutForeign_eq_nil_iff]
      constructor
      · intro hbarren
        refine ⟨fun m' hm' _ => hbarren m' hm', ?_⟩
        exact List.pairwise_of_forall_mem_list (fun _ _ m' hm' _ => hbarren m' hm')
      · intro hpair m' hm'
        exact hpair.1 m' hm' rfl
    | false =>
      have hhead : ∀ m' ∈ ms, false = true → m'.fruitful registry venueName = false :=
        fun _ _ hfalse => absurd hfalse Bool.false_ne_true
      rw [if_neg Bool.false_ne_true, and_iff_right hhead, List.flatMap_cons]
      cases m with
      | depth m =>
        have hregistered : m.registered registry venueName = true := by
          rw [Message.foreign] at hm
          simpa using hm
        obtain ⟨id, hid⟩ := m.registered_iff.mp hregistered
        rw [Message.encode, parse_depth m hid, parse_depth m hid, List.append_cancel_left_eq, ih]
      | bestBidAsk m => rw [Message.encode, parse_bestBidAsk, parse_bestBidAsk, ih]
      | trades m => rw [Message.encode, parse_trades, parse_trades, ih]

/-- The sample under a symbol of its own. -/
def foreignDepth : DepthMessage := { sampleDepth with symbol := ⟨[69, 84, 72], by decide⟩ }

/-- Behind a message of an unknown symbol the two updates of the sample are lost. -/
theorem foreign_message_hides_sample :
    let parser := binanceParser (.ofRows [⟨[66], [66, 84, 67]⟩]) [66]
    let ms := [Message.depth foreignDepth, Message.depth sampleDepth]
    ¬ parser.parse (fun _ => 0) (ms.flatMap Message.encode) =
      parser.parse (fun _ => 0)
        ((withoutForeign (.ofRows [⟨[66], [66, 84, 67]⟩]) [66] ms).flatMap Message.encode) := by
  intro parser ms hsame
  have hforeign : parser.parse (fun _ => 0) (ms.flatMap Message.encode) = [] :=
    parse_foreign (m := foreignDepth) rfl (fun _ => 0) _
  rw [hforeign] at hsame
  have hbarren := (parse_withoutForeign_eq_nil_iff ms (fun _ => 0)).mp hsame.symm
  exact Bool.noConfusion (hbarren (.depth sampleDepth) (by simp [ms]))

end HftSystem.SbeWire
