import HftSystem.ByteWords
import HftSystem.MarketUpdate
import HftSystem.MessageSchema
import HftSystem.TwosComplement
import HftSystem.VenueRegistry

/-!
The decoder of one binary depth message. `decode` first walks over the two level
groups to the trailing symbol and only then enqueues one update per level;
`measure` computes the length of a message of any schema. The two computations
are written separately and agree on every byte string.

A span of bytes is a list, sizes are natural numbers, and the queue is the list
of updates enqueued. The time stamp counter is a parameter.
-/
namespace HftSystem.SbeDecoder

open ByteWords TwosComplement

/-! ### Reading -/

def readScaled (buf : List UInt8) (offset : ℕ) (enc : IntEncoding) : Int64 :=
  match enc with
  | .int8 => .ofInt (truncate 8 (readLe 1 buf offset))
  | .int16 => .ofInt (truncate 16 (readLe 2 buf offset))
  | .int32 => .ofInt (truncate 32 (readLe 4 buf offset))
  | .int64 => .ofInt (readLe 8 buf offset)
  | .uint8 => .ofInt (readLe 1 buf offset)
  | .uint16 => .ofInt (readLe 2 buf offset)
  | .uint32 => .ofInt (readLe 4 buf offset)
  | .uint64 => .ofInt (readLe 8 buf offset)

def eventTimeUs (rawTs : Int64) (unit : TimestampUnit) : Int64 :=
  match unit with
  | .microseconds => rawTs
  | .milliseconds => rawTs * 1000
  | .nanoseconds => rawTs / 1000

/-! ### The layout that the pre-scan finds -/

section Layout

variable (msg : List UInt8) (schema : MessageSchema)

/-- The offset of the bid group. -/
def bidsStart : ℕ := 8 + schema.fixedBlockSize

def bidBlockLen : ℕ := readLe 2 msg (bidsStart schema)

def numBids : ℕ := readLe 2 msg (bidsStart schema + 2)

def bidsEnd : ℕ := bidsStart schema + 4 + bidBlockLen msg schema * numBids msg schema

def askBlockLen : ℕ := readLe 2 msg (bidsEnd msg schema)

def numAsks : ℕ := readLe 2 msg (bidsEnd msg schema + 2)

def asksEnd : ℕ := bidsEnd msg schema + 4 + askBlockLen msg schema * numAsks msg schema

def symLen : ℕ := readLe 1 msg (asksEnd msg schema)

def symbol : List UInt8 := (msg.drop (asksEnd msg schema + 1)).take (symLen msg schema)

end Layout

/-! ### Decoding -/

/-- One of the two level loops: the updates it enqueues and the offset it leaves.
It stops early at a block that does not fit the message. -/
def levelLoop (msg : List UInt8) (schema : MessageSchema) (blockLen : ℕ)
    (update : Int64 → Int64 → MarketUpdate) : (levels : ℕ) → (offset : ℕ) → List MarketUpdate × ℕ
  | 0, offset => ([], offset)
  | levels + 1, offset =>
    if offset + blockLen > msg.length then ([], offset)
    else
      let price := readScaled msg (offset + schema.priceField.offset) schema.priceField.rawType
      let qty := readScaled msg (offset + schema.qtyField.offset) schema.qtyField.rawType
      let (us, last) := levelLoop msg schema blockLen update levels (offset + blockLen)
      (update price qty :: us, last)

/-- The update of one level, with the fields that all levels of a message share. -/
def levelUpdate (msg : List UInt8) (schema : MessageSchema) (recvTsc : UInt64)
    (instrumentId : UInt32) (side : Side) (price qty : Int64) : MarketUpdate :=
  let rawTs := readScaled msg (8 + schema.eventTimeOffset) .int64
  let priceExp := Int8.ofInt (readLe 1 msg (8 + schema.priceExpOffset))
  let qtyExp := Int8.ofInt (readLe 1 msg (8 + schema.qtyExpOffset))
  { MarketUpdate.new instrumentId side price qty priceExp qtyExp
      (eventTimeUs rawTs schema.eventTimeUnit) with recvTsc }

/-- The bytes consumed, or 0, and the updates enqueued. -/
def decode (msg : List UInt8) (schema : MessageSchema) (registry : VenueRegistry)
    (venueName : List UInt8) (recvTsc : UInt64) : ℕ × List MarketUpdate :=
  if msg.length < 8 then (0, [])
  else if 8 + schema.fixedBlockSize > msg.length then (0, [])
  else if bidsStart schema + 4 > msg.length then (0, [])
  else if bidsEnd msg schema + 4 > msg.length then (0, [])
  else if asksEnd msg schema ≥ msg.length then (0, [])
  else if asksEnd msg schema + 1 + symLen msg schema > msg.length then (0, [])
  else
    match registry.lookup venueName (symbol msg schema) with
    | .error _ => (0, [])
    | .ok instrumentId =>
      let update := levelUpdate msg schema recvTsc instrumentId
      let (bids, offset) := levelLoop msg schema (bidBlockLen msg schema) (update .buy)
        (numBids msg schema) (bidsStart schema + 4)
      let (asks, _) := levelLoop msg schema (askBlockLen msg schema) (update .sell)
        (numAsks msg schema) (offset + 4)
      (asksEnd msg schema + 1 + symLen msg schema, bids ++ asks)

/-! ### Measuring -/

def measureGroups (msg : List UInt8) (enc : GroupNumEncoding) :
    (groups : ℕ) → (offset : ℕ) → Option ℕ
  | 0, offset => some offset
  | groups + 1, offset =>
    if offset + 4 > msg.length then none
    else
      let blockLen := readLe 2 msg offset
      match enc with
      | .uint32 =>
        if offset + 6 > msg.length then none
        else measureGroups msg enc groups (offset + (6 + blockLen * readLe 4 msg (offset + 2)))
      | .uint16 => measureGroups msg enc groups (offset + (4 + blockLen * readLe 2 msg (offset + 2)))

def measureVardata (msg : List UInt8) : (fields : ℕ) → (offset : ℕ) → Option ℕ
  | 0, offset => some offset
  | fields + 1, offset =>
    if offset ≥ msg.length then none
    else measureVardata msg fields (offset + (1 + readLe 1 msg offset))

/-- The length of the message, or 0; it may lie beyond the end of the bytes given. -/
def measure (msg : List UInt8) (schema : MessageSchema) : ℕ :=
  if msg.length < 8 then 0
  else
    ((measureGroups msg schema.groupNumEncoding schema.numGroups (8 + schema.fixedBlockSize)).bind
      (measureVardata msg schema.numVardata)).getD 0

/-! ### The level loops run to their end -/

/-- A group that fits the message is read to its last level. -/
theorem levelLoop_of_fits {msg : List UInt8} (schema : MessageSchema) {blockLen levels offset : ℕ}
    (hfits : offset + blockLen * levels ≤ msg.length) (update : Int64 → Int64 → MarketUpdate) :
    (levelLoop msg schema blockLen update levels offset).1.length = levels ∧
      (levelLoop msg schema blockLen update levels offset).2 = offset + blockLen * levels := by
  induction levels generalizing offset with
  | zero => exact ⟨rfl, rfl⟩
  | succ levels ih =>
    rw [Nat.mul_succ] at hfits
    have hrest : offset + blockLen + blockLen * levels ≤ msg.length := by omega
    obtain ⟨hlength, hoffset⟩ := ih hrest
    rw [levelLoop, if_neg (by omega)]
    refine ⟨?_, ?_⟩
    · rw [List.length_cons, hlength]
    · rw [hoffset, Nat.mul_succ]
      omega

/-! ### Agreement -/

/-- The bytes of the last field of a message of length c. -/
def symbolEndingAt (msg : List UInt8) (schema : MessageSchema) (c : ℕ) : List UInt8 :=
  (msg.take c).drop (asksEnd msg schema + 1)

/-- The guards that `decode` passes before it looks the symbol up. -/
structure Scanned (msg : List UInt8) (schema : MessageSchema) : Prop where
  bids : bidsStart schema + 4 ≤ msg.length
  asks : bidsEnd msg schema + 4 ≤ msg.length
  symbol : asksEnd msg schema < msg.length

theorem symbolEndingAt_eq (msg : List UInt8) (schema : MessageSchema) :
    symbolEndingAt msg schema (asksEnd msg schema + 1 + symLen msg schema) = symbol msg schema := by
  unfold symbolEndingAt symbol
  rw [List.drop_take]
  congr 1
  omega

theorem bidsStart_le_bidsEnd (msg : List UInt8) (schema : MessageSchema) :
    bidsStart schema + 4 ≤ bidsEnd msg schema := Nat.le_add_right _ _

theorem bidsEnd_le_asksEnd (msg : List UInt8) (schema : MessageSchema) :
    bidsEnd msg schema + 4 ≤ asksEnd msg schema := Nat.le_add_right _ _

/-- Everything that `decode` can do. -/
inductive Outcome (msg : List UInt8) (schema : MessageSchema) (registry : VenueRegistry)
    (venueName : List UInt8) : ℕ × List MarketUpdate → Prop
  | short (h : ¬ (Scanned msg schema ∧ asksEnd msg schema + 1 + symLen msg schema ≤ msg.length)) :
      Outcome msg schema registry venueName (0, [])
  | unknown (hscanned : Scanned msg schema) {e : LookupError}
      (hlookup : registry.lookup venueName (symbol msg schema) = .error e) :
      Outcome msg schema registry venueName (0, [])
  | decoded (hscanned : Scanned msg schema)
      (hfits : asksEnd msg schema + 1 + symLen msg schema ≤ msg.length) {id : UInt32}
      (hlookup : registry.lookup venueName (symbol msg schema) = .ok id) {us : List MarketUpdate}
      (hlevels : us.length = numBids msg schema + numAsks msg schema) :
      Outcome msg schema registry venueName (asksEnd msg schema + 1 + symLen msg schema, us)

theorem decode_spec (msg : List UInt8) (schema : MessageSchema) (registry : VenueRegistry)
    (venueName : List UInt8) (recvTsc : UInt64) :
    Outcome msg schema registry venueName (decode msg schema registry venueName recvTsc) := by
  have hbids := bidsStart_le_bidsEnd msg schema
  have hasks := bidsEnd_le_asksEnd msg schema
  have hstart : bidsStart schema = 8 + schema.fixedBlockSize := rfl
  unfold decode
  split
  · exact .short (fun h => by have := h.1.bids; omega)
  split
  · exact .short (fun h => by have := h.1.bids; omega)
  split
  · exact .short (fun h => by have := h.1.bids; omega)
  split
  · exact .short (fun h => by have := h.1.asks; omega)
  split
  · exact .short (fun h => by have := h.1.symbol; omega)
  split
  · exact .short (fun h => by have := h.2; omega)
  have hscanned : Scanned msg schema := ⟨by omega, by omega, by omega⟩
  split
  · exact .unknown hscanned ‹_›
  · rename_i id hlookup
    refine .decoded hscanned (by omega) hlookup ?_
    have hbidsFit : bidsStart schema + 4 + bidBlockLen msg schema * numBids msg schema ≤
        msg.length := by
      rw [← bidsEnd]
      omega
    have hasksFit : bidsEnd msg schema + 4 + askBlockLen msg schema * numAsks msg schema ≤
        msg.length := by
      rw [← asksEnd]
      omega
    obtain ⟨hnum, hoffset⟩ :=
      levelLoop_of_fits schema hbidsFit (levelUpdate msg schema recvTsc id .buy)
    obtain ⟨hnum', -⟩ := levelLoop_of_fits schema hasksFit (levelUpdate msg schema recvTsc id .sell)
    rw [List.length_append, hnum, hoffset, ← bidsEnd, hnum']

/-- The group loop of `measure` over two groups counted in 16 bits. -/
theorem measureGroups_two (msg : List UInt8) (schema : MessageSchema) :
    measureGroups msg .uint16 2 (8 + schema.fixedBlockSize) =
      if bidsStart schema + 4 > msg.length then none
      else if bidsEnd msg schema + 4 > msg.length then none
      else some (asksEnd msg schema) := by
  have hbids : 8 + schema.fixedBlockSize + (4 + readLe 2 msg (8 + schema.fixedBlockSize) *
      readLe 2 msg (8 + schema.fixedBlockSize + 2)) = bidsEnd msg schema := by
    rw [bidsEnd, bidBlockLen, numBids, bidsStart]
    omega
  have hasks : bidsEnd msg schema + (4 + readLe 2 msg (bidsEnd msg schema) *
      readLe 2 msg (bidsEnd msg schema + 2)) = asksEnd msg schema := by
    rw [asksEnd, askBlockLen, numAsks]
    omega
  simp only [measureGroups, hbids, hasks]
  rfl

/-- The pre-scan and `measure` compute one length. -/
theorem measure_eq (hgroups : schema.numGroups = 2) (henc : schema.groupNumEncoding = .uint16)
    (hvardata : schema.numVardata = 1) :
    (Scanned msg schema ∧ measure msg schema = asksEnd msg schema + 1 + symLen msg schema) ∨
      (¬ Scanned msg schema ∧ measure msg schema = 0) := by
  have hbids := bidsStart_le_bidsEnd msg schema
  have hasks := bidsEnd_le_asksEnd msg schema
  have hstart : bidsStart schema = 8 + schema.fixedBlockSize := rfl
  unfold measure
  rw [hgroups, henc, hvardata, measureGroups_two]
  split
  · exact Or.inr ⟨fun h => by have := h.bids; omega, rfl⟩
  split
  · exact Or.inr ⟨fun h => by have := h.bids; omega, rfl⟩
  split
  · exact Or.inr ⟨fun h => by have := h.asks; omega, rfl⟩
  rw [Option.bind_some, measureVardata]
  split
  · exact Or.inr ⟨fun h => by have := h.symbol; omega, rfl⟩
  · refine Or.inl ⟨⟨by omega, by omega, by omega⟩, ?_⟩
    change asksEnd msg schema + (1 + symLen msg schema) = _
    omega

theorem measure_depth (kind : DepthKind) (msg : List UInt8) :
    (Scanned msg kind.schema ∧
        measure msg kind.schema = asksEnd msg kind.schema + 1 + symLen msg kind.schema) ∨
      (¬ Scanned msg kind.schema ∧ measure msg kind.schema = 0) := by
  cases kind with
  | diff => exact measure_eq rfl rfl rfl
  | snapshot => exact measure_eq rfl rfl rfl

/-- On every byte string the decoder consumes c bytes exactly when the message
measures c, fits, and names a registered symbol; it then has enqueued every level
of both groups, and otherwise nothing. -/
theorem decode_iff_measure (kind : DepthKind) (msg : List UInt8) (registry : VenueRegistry)
    (venueName : List UInt8) (recvTsc : UInt64) :
    let result := decode msg kind.schema registry venueName recvTsc
    (∀ c > 0, result.1 = c ↔ measure msg kind.schema = c ∧ c ≤ msg.length ∧
        ∃ id, registry.lookup venueName (symbolEndingAt msg kind.schema c) = .ok id) ∧
      (result.1 > 0 → result.2.length = numBids msg kind.schema + numAsks msg kind.schema) ∧
      (result.1 = 0 → result.2 = []) := by
  intro result
  have hspec := decode_spec msg kind.schema registry venueName recvTsc
  change Outcome msg kind.schema registry venueName result at hspec
  have hmeasure := measure_depth kind msg
  generalize result = result at hspec
  cases hspec with
  | short hshort =>
    refine ⟨?_, fun h => absurd h (lt_irrefl 0), fun _ => rfl⟩
    intro c hc
    refine iff_of_false (by dsimp only; omega) ?_
    rintro ⟨hm, hle, -⟩
    rcases hmeasure with ⟨hscanned, heq⟩ | ⟨-, heq⟩
    · exact hshort ⟨hscanned, by omega⟩
    · omega
  | unknown hscanned hlookup =>
    refine ⟨?_, fun h => absurd h (lt_irrefl 0), fun _ => rfl⟩
    intro c hc
    refine iff_of_false (by dsimp only; omega) ?_
    rintro ⟨hm, hle, id, hid⟩
    rcases hmeasure with ⟨-, heq⟩ | ⟨hnot, -⟩
    · rw [← hm, heq, symbolEndingAt_eq, hlookup] at hid
      exact nomatch hid
    · exact hnot hscanned
  | decoded hscanned hfits hlookup hlevels =>
    refine ⟨?_, fun _ => hlevels, fun h => absurd h (by dsimp only; omega)⟩
    intro c hc
    rcases hmeasure with ⟨-, heq⟩ | ⟨hnot, -⟩
    · rw [heq]
      constructor
      · rintro rfl
        rw [symbolEndingAt_eq]
        exact ⟨rfl, hfits, _, hlookup⟩
      · exact fun h => h.1
    · exact absurd hscanned hnot

end HftSystem.SbeDecoder
