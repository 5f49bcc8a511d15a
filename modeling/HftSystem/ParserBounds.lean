import HftSystem.SbeWire
import HftSystem.Tracing

/-!
The parser with a record of what it does to its payload: the bytes read, the
spans taken, the results of the computations in `size_t`, and how far each turn of
the loop moves the cursor. On every payload the loop ends, every read is inside
the payload and no size overflows.
-/
namespace HftSystem.ParserBounds

open ByteWords Tracing

inductive ParseEvent where
  | size (n : ℕ)
  | read (start len : ℕ)
  | subspan (cursor : ℕ)
  | advance (cursor next : ℕ)

/-- What is asked of an event in a payload of the given length. -/
def ParseEvent.Ok (length : ℕ) : ParseEvent → Prop
  | .size n => n < 2 ^ 64
  | .read start len => start + len ≤ length
  | .subspan cursor => cursor ≤ length
  | .advance cursor next => cursor + 8 ≤ next

abbrev Run (α : Type) := Traced ParseEvent α

/-- A part of the payload, with the position of its first byte. -/
structure Span where
  start : ℕ
  bytes : List UInt8

def addSize (a b : ℕ) : Run ℕ := .record (.size (a + b)) (a + b)

def mulSize (a b : ℕ) : Run ℕ := .record (.size (a * b)) (a * b)

/-- A read without a check of its own. -/
def Span.read (s : Span) (offset len : ℕ) : Run (List UInt8) :=
  .record (.read (s.start + offset) len) ((s.bytes.drop offset).take len)

def Span.subspan (s : Span) (cursor : ℕ) : Run Span :=
  .record (.subspan cursor) ⟨s.start + cursor, s.bytes.drop cursor⟩

/-! ### Decoding -/

def readLe (w : ℕ) (s : Span) (offset : ℕ) : Run ℕ := do
  if (← addSize offset w) > s.bytes.length then return 0
  return ofLE (← s.read offset w)

def readScaled (s : Span) (offset : ℕ) (enc : IntEncoding) : Run Int64 := do
  match enc with
  | .int8 => return .ofInt (TwosComplement.truncate 8 (← readLe 1 s offset))
  | .int16 => return .ofInt (TwosComplement.truncate 16 (← readLe 2 s offset))
  | .int32 => return .ofInt (TwosComplement.truncate 32 (← readLe 4 s offset))
  | .int64 => return .ofInt (← readLe 8 s offset)
  | .uint8 => return .ofInt (← readLe 1 s offset)
  | .uint16 => return .ofInt (← readLe 2 s offset)
  | .uint32 => return .ofInt (← readLe 4 s offset)
  | .uint64 => return .ofInt (← readLe 8 s offset)

/-- The event time and the exponents of a message. -/
structure FixedBlock where
  rawTs : Int64
  priceExp : Int8
  qtyExp : Int8

def FixedBlock.levelUpdate (fixed : FixedBlock) (schema : MessageSchema) (recvTsc : UInt64)
    (instrumentId : UInt32) (side : Side) (price qty : Int64) : MarketUpdate :=
  { MarketUpdate.new instrumentId side price qty fixed.priceExp fixed.qtyExp
      (SbeDecoder.eventTimeUs fixed.rawTs schema.eventTimeUnit) with recvTsc }

def readFixedBlock (s : Span) (schema : MessageSchema) : Run FixedBlock := do
  let rawTs ← readScaled s (← addSize 8 schema.eventTimeOffset) .int64
  let priceExp ← readLe 1 s (← addSize 8 schema.priceExpOffset)
  let qtyExp ← readLe 1 s (← addSize 8 schema.qtyExpOffset)
  return ⟨rawTs, .ofInt priceExp, .ofInt qtyExp⟩

/-- A group of levels: its block length, its number of levels and where it ends. -/
structure Group where
  blockLen : ℕ
  num : ℕ
  stop : ℕ

def readGroup (s : Span) (offset : ℕ) : Run Group := do
  let blockLen ← readLe 2 s offset
  let num ← readLe 2 s (← addSize offset 2)
  let stop ← addSize (← addSize offset 4) (← mulSize blockLen num)
  return ⟨blockLen, num, stop⟩

def levelLoop (s : Span) (schema : MessageSchema) (blockLen : ℕ)
    (update : Int64 → Int64 → MarketUpdate) :
    (levels : ℕ) → (offset : ℕ) → Run (List MarketUpdate × ℕ)
  | 0, offset => return ([], offset)
  | levels + 1, offset => do
    if (← addSize offset blockLen) > s.bytes.length then return ([], offset)
    let price ← readScaled s (← addSize offset schema.priceField.offset) schema.priceField.rawType
    let qty ← readScaled s (← addSize offset schema.qtyField.offset) schema.qtyField.rawType
    let (us, last) ← levelLoop s schema blockLen update levels (← addSize offset blockLen)
    return (update price qty :: us, last)

/-- The part of `decode` behind the lookup of the symbol. -/
def readLevels (s : Span) (schema : MessageSchema) (bids asks : Group) (offset : ℕ)
    (update : Side → Int64 → Int64 → MarketUpdate) : Run (List MarketUpdate) := do
  let (bidUpdates, offset) ← levelLoop s schema bids.blockLen (update .buy) bids.num
    (← addSize offset 4)
  let (askUpdates, _) ← levelLoop s schema asks.blockLen (update .sell) asks.num
    (← addSize offset 4)
  return bidUpdates ++ askUpdates

def decode (s : Span) (schema : MessageSchema) (registry : VenueRegistry)
    (venueName : List UInt8) (recvTsc : UInt64) : Run (ℕ × List MarketUpdate) := do
  if s.bytes.length < 8 then return (0, [])
  if (← addSize 8 schema.fixedBlockSize) > s.bytes.length then return (0, [])
  let fixed ← readFixedBlock s schema
  let offset ← addSize 8 schema.fixedBlockSize
  if (← addSize offset 4) > s.bytes.length then return (0, [])
  let bids ← readGroup s offset
  if (← addSize bids.stop 4) > s.bytes.length then return (0, [])
  let asks ← readGroup s bids.stop
  if asks.stop ≥ s.bytes.length then return (0, [])
  let symLen := ofLE (← s.read asks.stop 1)
  let stop ← addSize (← addSize asks.stop 1) symLen
  if stop > s.bytes.length then return (0, [])
  let symbol ← s.read (← addSize asks.stop 1) symLen
  match registry.lookup venueName symbol with
  | .error _ => return (0, [])
  | .ok id =>
    let us ← readLevels s schema bids asks offset (fixed.levelUpdate schema recvTsc id)
    return (stop, us)

/-! ### Measuring -/

def measureGroups (s : Span) (enc : GroupNumEncoding) :
    (groups : ℕ) → (offset : ℕ) → Run (Option ℕ)
  | 0, offset => return some offset
  | groups + 1, offset => do
    if (← addSize offset 4) > s.bytes.length then return none
    let blockLen ← readLe 2 s offset
    match enc with
    | .uint32 =>
      if (← addSize offset 6) > s.bytes.length then return none
      let count ← readLe 4 s (← addSize offset 2)
      measureGroups s enc groups (← addSize offset (← addSize 6 (← mulSize blockLen count)))
    | .uint16 =>
      let count ← readLe 2 s (← addSize offset 2)
      measureGroups s enc groups (← addSize offset (← addSize 4 (← mulSize blockLen count)))

def measureVardata (s : Span) : (fields : ℕ) → (offset : ℕ) → Run (Option ℕ)
  | 0, offset => return some offset
  | fields + 1, offset => do
    if offset ≥ s.bytes.length then return none
    let len := ofLE (← s.read offset 1)
    measureVardata s fields (← addSize offset (← addSize 1 len))

def measure (s : Span) (schema : MessageSchema) : Run ℕ := do
  if s.bytes.length < 8 then return 0
  match ← measureGroups s schema.groupNumEncoding schema.numGroups
      (← addSize 8 schema.fixedBlockSize) with
  | none => return 0
  | some offset => return (← measureVardata s schema.numVardata offset).getD 0

/-! ### Parsing -/

def handle (p : SBEVenueParser) (schema : MessageSchema) (msg : Span) (recvTsc : UInt64) :
    Run (ℕ × List MarketUpdate) := do
  if schema.skip then return (← measure msg schema, [])
  decode msg schema p.registry p.venueName recvTsc

/-- The loop for a number of turns: the updates, or nothing if it has not ended. -/
def parseFrom (p : SBEVenueParser) (payload : Span) :
    (turns : ℕ) → (tsc : ℕ → UInt64) → (cursor : ℕ) → Run (Option (List MarketUpdate))
  | 0, _, _ => return none
  | turns + 1, tsc, cursor => do
    if ¬ cursor < payload.bytes.length then return some []
    if (← addSize cursor 4) > payload.bytes.length then return some []
    let templateId ← payload.read (← addSize cursor 2) 2
    match p.schemas.lookup (UInt16.ofNat (ofLE templateId)) with
    | none => return some []
    | some schema =>
      let msg ← payload.subspan cursor
      let (consumed, us) ← handle p schema msg (tsc 0)
      if consumed = 0 then return some us
      let next ← addSize cursor consumed
      Traced.record (.advance cursor next) ()
      let more ← parseFrom p payload turns (SBEVenueParser.tscAfter schema tsc) next
      return more.map (us ++ ·)

/-! ### The values are those of the parser -/

open Traced

section Values

@[simp] theorem value_addSize (a b : ℕ) : (addSize a b).value = a + b := rfl

@[simp] theorem value_mulSize (a b : ℕ) : (mulSize a b).value = a * b := rfl

@[simp] theorem value_read (s : Span) (offset len : ℕ) :
    (s.read offset len).value = (s.bytes.drop offset).take len := rfl

@[simp] theorem value_subspan (s : Span) (cursor : ℕ) :
    (s.subspan cursor).value = ⟨s.start + cursor, s.bytes.drop cursor⟩ := rfl

variable (s : Span)

@[simp] theorem value_readLe (w offset : ℕ) :
    (readLe w s offset).value = ByteWords.readLe w s.bytes offset := by
  simp only [readLe, value_bind, value_ite]
  rfl

@[simp] theorem value_readScaled (offset : ℕ) (enc : IntEncoding) :
    (readScaled s offset enc).value = SbeDecoder.readScaled s.bytes offset enc := by
  cases enc <;> simp [readScaled, SbeDecoder.readScaled]

theorem value_readFixedBlock (schema : MessageSchema) :
    (readFixedBlock s schema).value.levelUpdate schema =
      SbeDecoder.levelUpdate s.bytes schema := by
  simp only [readFixedBlock, value_bind, value_addSize, value_pure, value_readScaled, value_readLe]
  rfl

theorem value_readGroup (offset : ℕ) :
    (readGroup s offset).value = ⟨ByteWords.readLe 2 s.bytes offset,
      ByteWords.readLe 2 s.bytes (offset + 2),
      offset + 4 +
        ByteWords.readLe 2 s.bytes offset * ByteWords.readLe 2 s.bytes (offset + 2)⟩ := by
  simp [readGroup]

theorem value_readBids (schema : MessageSchema) :
    (readGroup s (8 + schema.fixedBlockSize)).value = ⟨SbeDecoder.bidBlockLen s.bytes schema,
      SbeDecoder.numBids s.bytes schema, SbeDecoder.bidsEnd s.bytes schema⟩ := value_readGroup s _

theorem value_readAsks (schema : MessageSchema) :
    (readGroup s (SbeDecoder.bidsEnd s.bytes schema)).value =
      ⟨SbeDecoder.askBlockLen s.bytes schema, SbeDecoder.numAsks s.bytes schema,
        SbeDecoder.asksEnd s.bytes schema⟩ := value_readGroup s _

@[simp] theorem value_levelLoop (schema : MessageSchema) (blockLen : ℕ)
    (update : Int64 → Int64 → MarketUpdate) (levels offset : ℕ) :
    (levelLoop s schema blockLen update levels offset).value =
      SbeDecoder.levelLoop s.bytes schema blockLen update levels offset := by
  induction levels generalizing offset with
  | zero => rfl
  | succ levels ih =>
    simp only [levelLoop, value_bind, value_ite]
    simp only [value_addSize, value_pure, value_readScaled, ih]
    rfl

@[simp] theorem value_readLevels (schema : MessageSchema) (bids asks : Group) (offset : ℕ)
    (update : Side → Int64 → Int64 → MarketUpdate) :
    let bidLoop := SbeDecoder.levelLoop s.bytes schema bids.blockLen (update .buy) bids.num
      (offset + 4)
    (readLevels s schema bids asks offset update).value =
      bidLoop.1 ++ (SbeDecoder.levelLoop s.bytes schema asks.blockLen (update .sell) asks.num
        (bidLoop.2 + 4)).1 := by
  simp only [readLevels, value_bind, value_addSize, value_pure, value_levelLoop]

/-- A read of w bytes inside the string. -/
theorem ofLE_read {msg : List UInt8} {w offset : ℕ} (h : offset + w ≤ msg.length) :
    ofLE ((msg.drop offset).take w) = ByteWords.readLe w msg offset := by
  rw [ByteWords.readLe, if_neg (by omega)]

theorem value_decode (schema : MessageSchema) (registry : VenueRegistry) (venueName : List UInt8)
    (recvTsc : UInt64) :
    (decode s schema registry venueName recvTsc).value =
      SbeDecoder.decode s.bytes schema registry venueName recvTsc := by
  unfold decode SbeDecoder.decode
  simp only [value_bind, value_ite]
  simp only [value_addSize, value_pure, value_read, value_readBids, value_readAsks,
    value_readFixedBlock]
  refine if_congr Iff.rfl rfl
    (if_congr Iff.rfl rfl (if_congr Iff.rfl rfl (if_congr Iff.rfl rfl ?_)))
  refine ite_congr rfl (fun _ => rfl) (fun hsymbol => ?_)
  rw [ofLE_read (by omega)]
  refine if_congr Iff.rfl rfl ?_
  change Traced.value (match registry.lookup venueName (SbeDecoder.symbol s.bytes schema) with
    | .error _ => _
    | .ok id => _) = _
  cases registry.lookup venueName (SbeDecoder.symbol s.bytes schema) with
  | error e => rfl
  | ok id =>
    simp only [value_bind, value_pure, value_readLevels]
    rfl

theorem value_measureGroups (enc : GroupNumEncoding) (groups offset : ℕ) :
    (measureGroups s enc groups offset).value =
      SbeDecoder.measureGroups s.bytes enc groups offset := by
  induction groups generalizing offset with
  | zero => rfl
  | succ groups ih =>
    cases enc with
    | uint16 =>
      simp only [measureGroups, value_bind, value_ite]
      simp only [value_addSize, value_mulSize, value_pure, value_readLe, ih]
      rfl
    | uint32 =>
      simp only [measureGroups, value_bind, value_ite]
      simp only [value_addSize, value_mulSize, value_pure, value_readLe, ih]
      rfl

theorem value_measureVardata (fields offset : ℕ) :
    (measureVardata s fields offset).value =
      SbeDecoder.measureVardata s.bytes fields offset := by
  induction fields generalizing offset with
  | zero => rfl
  | succ fields ih =>
    simp only [measureVardata, value_bind, value_ite]
    simp only [value_addSize, value_pure, value_read, ih]
    refine ite_congr rfl (fun _ => rfl) (fun hlen => ?_)
    rw [ofLE_read (by omega)]

theorem value_measure (schema : MessageSchema) :
    (measure s schema).value = SbeDecoder.measure s.bytes schema := by
  unfold measure SbeDecoder.measure
  simp only [value_bind, value_ite, value_addSize, value_measureGroups]
  refine if_congr Iff.rfl rfl ?_
  cases SbeDecoder.measureGroups s.bytes schema.groupNumEncoding schema.numGroups
      (8 + schema.fixedBlockSize) with
  | none => rfl
  | some offset =>
    simp only [value_bind, value_pure, value_measureVardata]
    rfl

theorem value_handle (p : SBEVenueParser) (schema : MessageSchema) (recvTsc : UInt64) :
    (handle p schema s recvTsc).value = p.handle schema s.bytes recvTsc := by
  simp only [handle, SBEVenueParser.handle, value_ite, value_bind, value_pure, value_measure,
    value_decode]

end Values

/-! ### How far a message moves the cursor -/

/-- No message is measured to end more than this behind the bytes given. -/
def skipLimit : ℕ := 2 ^ 48

theorem mul_readLe_le (msg : List UInt8) (w a b : ℕ) (hw : w ≤ 4) :
    ByteWords.readLe 2 msg a * ByteWords.readLe w msg b ≤ (2 ^ 16 - 1) * (2 ^ 32 - 1) := by
  have ha := readLe_lt 2 msg a
  have hb := lt_of_lt_of_le (readLe_lt w msg b) (Nat.pow_le_pow_right (by decide) hw)
  exact Nat.mul_le_mul (by omega) (by omega)

theorem measureGroups_bounds {msg : List UInt8} {enc : GroupNumEncoding} {groups offset stop : ℕ}
    (h : SbeDecoder.measureGroups msg enc groups offset = some stop) :
    offset ≤ stop ∧ stop ≤ max offset (msg.length + skipLimit) := by
  have hlimit : skipLimit = 2 ^ 48 := rfl
  induction groups generalizing offset with
  | zero =>
    obtain rfl := Option.some.inj h
    exact ⟨le_refl _, le_max_left _ _⟩
  | succ groups ih =>
    rw [SbeDecoder.measureGroups] at h
    by_cases hfour : offset + 4 > msg.length
    · rw [if_pos hfour] at h
      contradiction
    rw [if_neg hfour] at h
    cases enc with
    | uint16 =>
      have hmul := mul_readLe_le msg 2 offset (offset + 2) (by decide)
      have hbounds := ih h
      omega
    | uint32 =>
      have hmul := mul_readLe_le msg 4 offset (offset + 2) (le_refl _)
      dsimp only at h
      by_cases hsix : offset + 6 > msg.length
      · rw [if_pos hsix] at h
        contradiction
      rw [if_neg hsix] at h
      have hbounds := ih h
      omega

theorem measureVardata_bounds {msg : List UInt8} {fields offset stop : ℕ}
    (h : SbeDecoder.measureVardata msg fields offset = some stop) :
    offset ≤ stop ∧ stop ≤ max offset (msg.length + skipLimit) := by
  have hlimit : skipLimit = 2 ^ 48 := rfl
  induction fields generalizing offset with
  | zero =>
    obtain rfl := Option.some.inj h
    exact ⟨le_refl _, le_max_left _ _⟩
  | succ fields ih =>
    have hbyte := readLe_lt 1 msg offset
    rw [SbeDecoder.measureVardata] at h
    by_cases hend : offset ≥ msg.length
    · rw [if_pos hend] at h
      contradiction
    rw [if_neg hend] at h
    have hbounds := ih h
    omega

theorem measure_bounds (msg : List UInt8) {schema : MessageSchema}
    (hsmall : 8 + schema.fixedBlockSize ≤ skipLimit) :
    (SbeDecoder.measure msg schema = 0 ∨ 8 ≤ SbeDecoder.measure msg schema) ∧
      SbeDecoder.measure msg schema ≤ msg.length + skipLimit := by
  unfold SbeDecoder.measure
  split
  · exact ⟨Or.inl rfl, Nat.zero_le _⟩
  cases hgroups : SbeDecoder.measureGroups msg schema.groupNumEncoding schema.numGroups
      (8 + schema.fixedBlockSize) with
  | none => exact ⟨Or.inl rfl, Nat.zero_le _⟩
  | some offset =>
    rw [Option.bind_some]
    cases hvardata : SbeDecoder.measureVardata msg schema.numVardata offset with
    | none => exact ⟨Or.inl rfl, Nat.zero_le _⟩
    | some stop =>
      obtain ⟨hlow, hhigh⟩ := measureGroups_bounds hgroups
      obtain ⟨hlow', hhigh'⟩ := measureVardata_bounds hvardata
      rw [Option.getD_some]
      exact ⟨Or.inr (by omega), by omega⟩

theorem decode_bounds (msg : List UInt8) (schema : MessageSchema) (registry : VenueRegistry)
    (venueName : List UInt8) (recvTsc : UInt64) :
    let consumed := (SbeDecoder.decode msg schema registry venueName recvTsc).1
    (consumed = 0 ∨ 8 ≤ consumed) ∧ consumed ≤ msg.length := by
  have hspec := SbeDecoder.decode_spec msg schema registry venueName recvTsc
  generalize SbeDecoder.decode msg schema registry venueName recvTsc = result at hspec
  cases hspec with
  | short _ => exact ⟨Or.inl rfl, Nat.zero_le _⟩
  | unknown _ _ => exact ⟨Or.inl rfl, Nat.zero_le _⟩
  | decoded _ hfits _ _ =>
    have hbids := SbeDecoder.bidsStart_le_bidsEnd msg schema
    have hasks := SbeDecoder.bidsEnd_le_asksEnd msg schema
    exact ⟨Or.inr (by dsimp only; omega), hfits⟩

/-- The loop leaves an offset inside the message, or the one it was given. -/
theorem levelLoop_offset_le (msg : List UInt8) (schema : MessageSchema) (blockLen : ℕ)
    (update : Int64 → Int64 → MarketUpdate) (levels offset : ℕ) :
    (SbeDecoder.levelLoop msg schema blockLen update levels offset).2 ≤ max offset msg.length := by
  induction levels generalizing offset with
  | zero => exact le_max_left _ _
  | succ levels ih =>
    rw [SbeDecoder.levelLoop]
    split
    · exact le_max_left _ _
    · have hle := ih (offset + blockLen)
      dsimp only
      omega

/-! ### Every event is in order -/

def Safe (length : ℕ) {α : Type} (x : Run α) : Prop := Satisfies (ParseEvent.Ok length) x

/-- The span lies in a payload of a length that an object can have. -/
structure Span.Within (s : Span) (length : ℕ) : Prop where
  stop_le : s.start + s.bytes.length ≤ length
  length_lt : length < 2 ^ 63

/-- The offsets of a schema are far below the limits of `size_t`. -/
structure SmallSchema (schema : MessageSchema) : Prop where
  fixedBlockSize : schema.fixedBlockSize ≤ 2 ^ 16
  eventTimeOffset : schema.eventTimeOffset ≤ 2 ^ 16
  priceExpOffset : schema.priceExpOffset ≤ 2 ^ 16
  qtyExpOffset : schema.qtyExpOffset ≤ 2 ^ 16
  priceField : schema.priceField.offset ≤ 2 ^ 16
  qtyField : schema.qtyField.offset ≤ 2 ^ 16

section Safety

variable {length : ℕ}

theorem safe_pure {α : Type} (a : α) : Safe length (pure a : Run α) := satisfies_pure a

theorem Safe.bind {α β : Type} {x : Run α} {f : α → Run β} (hx : Safe length x)
    (hf : Safe length (f x.value)) : Safe length (x >>= f) := Satisfies.bind hx hf

theorem safe_addSize {a b : ℕ} (h : a + b < 2 ^ 64) : Safe length (addSize a b) :=
  satisfies_record (show ParseEvent.Ok length (.size (a + b)) from h) _

theorem safe_mulSize {a b : ℕ} (h : a * b < 2 ^ 64) : Safe length (mulSize a b) :=
  satisfies_record (show ParseEvent.Ok length (.size (a * b)) from h) _

theorem safe_subspan {s : Span} {cursor : ℕ} (h : cursor ≤ length) :
    Safe length (s.subspan cursor) :=
  satisfies_record (show ParseEvent.Ok length (.subspan cursor) from h) _

theorem safe_advance {cursor next : ℕ} (h : cursor + 8 ≤ next) :
    Safe length (record (.advance cursor next) ()) :=
  satisfies_record (show ParseEvent.Ok length (.advance cursor next) from h) _

variable {s : Span} (hs : s.Within length)

include hs

theorem Span.Within.bytes_lt : s.bytes.length < 2 ^ 63 := by
  have hstop := hs.stop_le
  have hlength := hs.length_lt
  omega

theorem safe_read {offset len : ℕ} (h : offset + len ≤ s.bytes.length) :
    Safe length (s.read offset len) := by
  refine satisfies_record ?_ _
  have hstop := hs.stop_le
  change s.start + offset + len ≤ length
  omega

theorem safe_readLe (w : ℕ) {offset : ℕ} (h : offset + w < 2 ^ 64) :
    Safe length (readLe w s offset) := by
  refine (safe_addSize h).bind ?_
  split
  · exact safe_pure _
  · refine (safe_read hs ?_).bind (safe_pure _)
    rename_i hfits
    exact Nat.le_of_not_lt hfits

theorem safe_readScaled (enc : IntEncoding) {offset : ℕ} (h : offset + 8 < 2 ^ 64) :
    Safe length (readScaled s offset enc) := by
  have hread : ∀ w ≤ 8, Safe length (readLe w s offset) :=
    fun w hw => safe_readLe hs w (by omega)
  cases enc <;> exact (hread _ (by decide)).bind (safe_pure _)

theorem safe_readFixedBlock {schema : MessageSchema} (hsmall : SmallSchema schema) :
    Safe length (readFixedBlock s schema) := by
  have htime := hsmall.eventTimeOffset
  have hprice := hsmall.priceExpOffset
  have hqty := hsmall.qtyExpOffset
  refine (safe_addSize (by omega)).bind ((safe_readScaled hs _ ?_).bind ?_)
  · rw [value_addSize]
    omega
  refine (safe_addSize (by omega)).bind ((safe_readLe hs 1 ?_).bind ?_)
  · rw [value_addSize]
    omega
  refine (safe_addSize (by omega)).bind ((safe_readLe hs 1 ?_).bind (safe_pure _))
  rw [value_addSize]
  omega

theorem safe_readGroup {offset : ℕ} (h : offset ≤ s.bytes.length) :
    Safe length (readGroup s offset) := by
  have hbytes := hs.bytes_lt
  have hmul := mul_readLe_le s.bytes 2 offset (offset + 2) (by decide)
  refine (safe_readLe hs 2 (by omega)).bind ((safe_addSize (by omega)).bind ?_)
  refine (safe_readLe hs 2 (by rw [value_addSize]; omega)).bind ?_
  refine (safe_addSize (by omega)).bind ?_
  simp only [value_addSize, value_readLe]
  refine (safe_mulSize (by omega)).bind ((safe_addSize ?_).bind (safe_pure _))
  rw [value_mulSize]
  omega

theorem safe_levelLoop {schema : MessageSchema} (hsmall : SmallSchema schema) {blockLen : ℕ}
    (hblock : blockLen < 2 ^ 16) (update : Int64 → Int64 → MarketUpdate) (levels : ℕ) {offset : ℕ}
    (h : offset ≤ s.bytes.length + 8) :
    Safe length (levelLoop s schema blockLen update levels offset) := by
  have hbytes := hs.bytes_lt
  have hprice := hsmall.priceField
  have hqty := hsmall.qtyField
  induction levels generalizing offset with
  | zero => exact safe_pure _
  | succ levels ih =>
    refine (safe_addSize (by omega)).bind ?_
    rw [value_addSize]
    split
    · exact safe_pure _
    · rename_i hfits
      refine (safe_addSize (by omega)).bind ((safe_readScaled hs _ ?_).bind ?_)
      · rw [value_addSize]
        omega
      refine (safe_addSize (by omega)).bind ((safe_readScaled hs _ ?_).bind ?_)
      · rw [value_addSize]
        omega
      refine (safe_addSize (by omega)).bind ((ih ?_).bind (safe_pure _))
      rw [value_addSize]
      omega

theorem safe_readLevels {schema : MessageSchema} (hsmall : SmallSchema schema) {bids asks : Group}
    (hbids : bids.blockLen < 2 ^ 16) (hasks : asks.blockLen < 2 ^ 16) {offset : ℕ}
    (h : offset ≤ s.bytes.length) (update : Side → Int64 → Int64 → MarketUpdate) :
    Safe length (readLevels s schema bids asks offset update) := by
  have hbytes := hs.bytes_lt
  have hleft := levelLoop_offset_le s.bytes schema bids.blockLen (update .buy) bids.num (offset + 4)
  refine (safe_addSize (by omega)).bind ?_
  rw [value_addSize]
  refine (safe_levelLoop hs hsmall hbids _ _ (by omega)).bind ?_
  rw [value_levelLoop]
  dsimp only
  refine (safe_addSize (by omega)).bind ?_
  rw [value_addSize]
  exact (safe_levelLoop hs hsmall hasks _ _ (by omega)).bind (safe_pure _)

theorem safe_decode {schema : MessageSchema} (hsmall : SmallSchema schema)
    (registry : VenueRegistry) (venueName : List UInt8) (recvTsc : UInt64) :
    Safe length (decode s schema registry venueName recvTsc) := by
  have hbytes := hs.bytes_lt
  have hfixed := hsmall.fixedBlockSize
  unfold decode
  split
  · exact safe_pure _
  refine (safe_addSize (by omega)).bind ?_
  rw [value_addSize]
  split
  · exact safe_pure _
  refine (safe_readFixedBlock hs hsmall).bind ((safe_addSize (by omega)).bind ?_)
  rw [value_addSize]
  refine (safe_addSize (by omega)).bind ?_
  rw [value_addSize]
  split
  · exact safe_pure _
  refine (safe_readGroup hs (by omega)).bind ?_
  rw [value_readBids]
  have hmul := mul_readLe_le s.bytes 2 (8 + schema.fixedBlockSize) (8 + schema.fixedBlockSize + 2)
    (by decide)
  have hbids : SbeDecoder.bidsEnd s.bytes schema = 8 + schema.fixedBlockSize + 4 +
    ByteWords.readLe 2 s.bytes (8 + schema.fixedBlockSize) *
      ByteWords.readLe 2 s.bytes (8 + schema.fixedBlockSize + 2) := rfl
  dsimp only
  refine (safe_addSize (by omega)).bind ?_
  rw [value_addSize]
  split
  · exact safe_pure _
  refine (safe_readGroup hs (by omega)).bind ?_
  rw [value_readAsks]
  dsimp only
  split
  · exact safe_pure _
  refine (safe_read hs (by omega)).bind ?_
  rw [value_read, ofLE_read (by omega)]
  have hbyte := readLe_lt 1 s.bytes (SbeDecoder.asksEnd s.bytes schema)
  refine (safe_addSize (by omega)).bind ?_
  rw [value_addSize]
  refine (safe_addSize (by omega)).bind ?_
  rw [value_addSize]
  split
  · exact safe_pure _
  refine (safe_addSize (by omega)).bind ?_
  rw [value_addSize]
  refine (safe_read hs (by omega)).bind ?_
  split
  · exact safe_pure _
  · exact (safe_readLevels hs hsmall (readLe_lt 2 _ _) (readLe_lt 2 _ _) (by omega) _).bind
      (safe_pure _)

theorem safe_measureGroups (enc : GroupNumEncoding) (groups : ℕ) {offset : ℕ}
    (h : offset ≤ s.bytes.length + skipLimit) :
    Safe length (measureGroups s enc groups offset) := by
  have hbytes := hs.bytes_lt
  have hlimit : skipLimit = 2 ^ 48 := rfl
  induction groups generalizing offset with
  | zero => exact safe_pure _
  | succ groups ih =>
    refine (safe_addSize (by omega)).bind ?_
    rw [value_addSize]
    split
    · exact safe_pure _
    refine (safe_readLe hs 2 (by omega)).bind ?_
    rw [value_readLe]
    cases enc with
    | uint16 =>
      have hmul := mul_readLe_le s.bytes 2 offset (offset + 2) (by decide)
      refine (safe_addSize (by omega)).bind ?_
      rw [value_addSize]
      refine (safe_readLe hs 2 (by omega)).bind ?_
      rw [value_readLe]
      refine (safe_mulSize (by omega)).bind ?_
      rw [value_mulSize]
      refine (safe_addSize (by omega)).bind ?_
      rw [value_addSize]
      refine (safe_addSize (by omega)).bind ?_
      rw [value_addSize]
      exact ih (by omega)
    | uint32 =>
      have hmul := mul_readLe_le s.bytes 4 offset (offset + 2) (le_refl _)
      refine (safe_addSize (by omega)).bind ?_
      rw [value_addSize]
      split
      · exact safe_pure _
      refine (safe_addSize (by omega)).bind ?_
      rw [value_addSize]
      refine (safe_readLe hs 4 (by omega)).bind ?_
      rw [value_readLe]
      refine (safe_mulSize (by omega)).bind ?_
      rw [value_mulSize]
      refine (safe_addSize (by omega)).bind ?_
      rw [value_addSize]
      refine (safe_addSize (by omega)).bind ?_
      rw [value_addSize]
      exact ih (by omega)

theorem safe_measureVardata (fields : ℕ) (offset : ℕ) :
    Safe length (measureVardata s fields offset) := by
  have hbytes := hs.bytes_lt
  induction fields generalizing offset with
  | zero => exact safe_pure _
  | succ fields ih =>
    rw [measureVardata]
    split
    · exact safe_pure _
    refine (safe_read hs (by omega)).bind ?_
    rw [value_read, ofLE_read (by omega)]
    have hbyte := readLe_lt 1 s.bytes offset
    refine (safe_addSize (by omega)).bind ?_
    rw [value_addSize]
    exact (safe_addSize (by omega)).bind (ih _)

theorem safe_measure {schema : MessageSchema} (hsmall : SmallSchema schema) :
    Safe length (measure s schema) := by
  have hfixed := hsmall.fixedBlockSize
  have hlimit : skipLimit = 2 ^ 48 := rfl
  unfold measure
  split
  · exact safe_pure _
  refine (safe_addSize (by omega)).bind ?_
  rw [value_addSize]
  refine (safe_measureGroups hs _ _ (by omega)).bind ?_
  split
  · exact safe_pure _
  · exact (safe_measureVardata hs _ _).bind (safe_pure _)

theorem safe_handle (p : SBEVenueParser) {schema : MessageSchema} (hsmall : SmallSchema schema)
    (recvTsc : UInt64) : Safe length (handle p schema s recvTsc) := by
  unfold handle
  split
  · exact (safe_measure hs hsmall).bind (safe_pure _)
  · exact safe_decode hs hsmall _ _ _

end Safety

/-! ### The loop -/

/-- A payload: no object has more than `PTRDIFF_MAX` bytes. -/
structure Payload where
  bytes : List UInt8
  length_lt : bytes.length < 2 ^ 63

def Payload.span (payload : Payload) : Span := ⟨0, payload.bytes⟩

theorem lookup_mem {templateId : UInt16} {schema : MessageSchema}
    (h : binanceSchemas.lookup templateId = some schema) :
    schema = kBinanceTrades ∨ schema = kBinanceBestBidAsk ∨ schema = kBinanceDepthSnapshot ∨
      schema = kBinanceDepthDiff := by
  simp only [binanceSchemas, SchemaRegistry.lookup, SchemaRegistry.registerSchema, List.foldl,
    Function.update_apply] at h
  split at h
  · exact Or.inl (Option.some.inj h).symm
  split at h
  · exact Or.inr (Or.inl (Option.some.inj h).symm)
  split at h
  · exact Or.inr (Or.inr (Or.inl (Option.some.inj h).symm))
  split at h
  · exact Or.inr (Or.inr (Or.inr (Option.some.inj h).symm))
  · contradiction

theorem lookup_small {templateId : UInt16} {schema : MessageSchema}
    (h : binanceSchemas.lookup templateId = some schema) : SmallSchema schema := by
  obtain rfl | rfl | rfl | rfl := lookup_mem h <;> constructor <;> decide

/-- One message: what `decode` or `measure` returns. -/
theorem handle_bounds {p : SBEVenueParser} {schema : MessageSchema} (hsmall : SmallSchema schema)
    (msg : List UInt8) (recvTsc : UInt64) :
    let consumed := (p.handle schema msg recvTsc).1
    (consumed = 0 ∨ 8 ≤ consumed) ∧ consumed ≤ msg.length + skipLimit := by
  have hfixed := hsmall.fixedBlockSize
  have hlimit : skipLimit = 2 ^ 48 := rfl
  unfold SBEVenueParser.handle
  split
  · exact measure_bounds msg (by omega)
  · obtain ⟨hlow, hhigh⟩ := decode_bounds msg schema p.registry p.venueName recvTsc
    exact ⟨hlow, le_trans hhigh (Nat.le_add_right _ _)⟩

section Loop

variable {p : SBEVenueParser} (hp : p.schemas = binanceSchemas) (s : Span)

include hp

/-- A turn that goes on leaves at least 8 bytes fewer, so that one turn for every 8 bytes and one
to see the end are enough. -/
theorem value_parseFrom {turns : ℕ} (tsc : ℕ → UInt64) (cursor : ℕ)
    (hturns : (s.bytes.length - cursor + 7) / 8 < turns) :
    (parseFrom p s turns tsc cursor).value = some (p.parseFrom s.bytes tsc cursor) := by
  induction turns generalizing tsc cursor with
  | zero => omega
  | succ turns ih =>
    rw [parseFrom, SBEVenueParser.parseFrom]
    simp only [value_bind, value_ite]
    rw [value_addSize, value_addSize, value_read]
    by_cases hcursor : cursor < s.bytes.length
    · rw [if_neg (not_not.mpr hcursor), if_pos hcursor]
      by_cases hshort : cursor + 4 > s.bytes.length
      · rw [if_pos hshort, if_pos hshort, value_pure]
      rw [if_neg hshort, if_neg hshort, ofLE_read (by omega)]
      cases hschema : p.schemas.lookup (UInt16.ofNat
          (ByteWords.readLe 2 s.bytes (cursor + 2))) with
      | none => rfl
      | some schema =>
        rw [hp] at hschema
        have hbounds := handle_bounds (p := p) (lookup_small hschema) (s.bytes.drop cursor) (tsc 0)
        simp only [value_bind, value_ite]
        rw [value_handle, value_subspan, value_addSize]
        by_cases hzero : (p.handle schema (s.bytes.drop cursor) (tsc 0)).1 = 0
        · rw [if_pos hzero, if_pos hzero, value_pure]
        · have hnext := ih (SBEVenueParser.tscAfter schema tsc)
            (cursor + (p.handle schema (s.bytes.drop cursor) (tsc 0)).1)
            (by have := hbounds.1.resolve_left hzero; omega)
          rw [if_neg hzero, if_neg hzero, hnext, value_pure, Option.map_some]
    · rw [if_pos hcursor, if_neg hcursor, value_pure]

theorem safe_parseFrom {length : ℕ} (hs : s.Within length) (turns : ℕ) (tsc : ℕ → UInt64)
    {cursor : ℕ} (hcursor : cursor ≤ s.bytes.length + skipLimit) :
    Safe length (parseFrom p s turns tsc cursor) := by
  have hstop := hs.stop_le
  have hbytes := hs.bytes_lt
  have hlimit : skipLimit = 2 ^ 48 := rfl
  induction turns generalizing tsc cursor with
  | zero => exact safe_pure _
  | succ turns ih =>
    rw [parseFrom]
    split
    · exact safe_pure _
    refine (safe_addSize (by omega)).bind ?_
    rw [value_addSize]
    split
    · exact safe_pure _
    refine (safe_addSize (by omega)).bind ?_
    rw [value_addSize]
    refine (safe_read hs (by omega)).bind ?_
    split
    · exact safe_pure _
    rename_i schema hschema
    rw [hp] at hschema
    have hpart : (s.subspan cursor).value.Within length := by
      refine ⟨?_, hs.length_lt⟩
      rw [value_subspan, List.length_drop]
      dsimp only
      omega
    have hbounds := handle_bounds (p := p) (lookup_small hschema) (s.bytes.drop cursor) (tsc 0)
    rw [List.length_drop] at hbounds
    refine (safe_subspan (by omega)).bind ?_
    refine (safe_handle hpart p (lookup_small hschema) (tsc 0)).bind ?_
    rw [value_handle, value_subspan]
    generalize p.handle schema (s.bytes.drop cursor) (tsc 0) = result at hbounds
    obtain ⟨consumed, us⟩ := result
    dsimp only at hbounds ⊢
    split
    · exact safe_pure _
    rename_i hzero
    refine (safe_addSize (by omega)).bind ?_
    rw [value_addSize]
    exact (safe_advance (by omega)).bind ((ih _ (by omega)).bind (safe_pure _))

end Loop

/-- On every payload the loop ends within one turn for every 8 bytes and one more, with the
updates of `parse`; every turn that goes on moves the cursor by 8 or more, every byte read
and every span taken is inside the payload, and every size fits 64 bits. -/
theorem parse_safe (registry : VenueRegistry) (venueName : List UInt8) (payload : Payload)
    (tsc : ℕ → UInt64) :
    let p := SbeWire.binanceParser registry venueName
    (∀ turns, (payload.bytes.length + 7) / 8 < turns →
        (parseFrom p payload.span turns tsc 0).value = some (p.parse tsc payload.bytes)) ∧
      ∀ turns, ∀ e ∈ (parseFrom p payload.span turns tsc 0).events, e.Ok payload.bytes.length := by
  intro p
  have hp : p.schemas = binanceSchemas := rfl
  refine ⟨fun turns hturns => ?_, fun turns => ?_⟩
  · exact value_parseFrom hp payload.span tsc 0 (by rwa [Nat.sub_zero])
  · exact safe_parseFrom hp payload.span ⟨(Nat.zero_add _).le, payload.length_lt⟩ turns tsc
      (Nat.zero_le _)

end HftSystem.ParserBounds
