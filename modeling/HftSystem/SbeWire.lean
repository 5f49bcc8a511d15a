import HftSystem.SbeVenueParser

/-!
The wire format of the four Binance messages, as a reference encoder: every
message value carries the proofs that its fields fit their places. Parsing the
encodings of any messages, followed by any bytes, gives the levels of the depth
messages in order and then what parsing those bytes gives.
-/
namespace HftSystem.SbeWire

open ByteWords SbeDecoder

/-! ### Messages -/

/-- The header fields besides the template id, which the decoder ignores. -/
structure Header where
  blockLength : UInt16
  schemaId : UInt16
  version : UInt16

/-- One level of a group with blocks of the given length. -/
structure Level (blockLength : ℕ) where
  price : Int64
  quantity : Int64
  padding : List UInt8
  sized : padding.length + 16 = blockLength

structure LevelGroup where
  blockLength : ℕ
  levels : List (Level blockLength)
  blockLength_lt : blockLength < 65536
  levels_lt : levels.length < 65536

structure Symbol where
  name : List UInt8
  length_lt : name.length < 256

/-- The bytes between the event time and the exponents: the book update ids. -/
def idsLength : DepthKind → ℕ
  | .diff => 16
  | .snapshot => 8

structure DepthMessage where
  kind : DepthKind
  header : Header
  eventTime : Int64
  updateIds : List UInt8
  sized : updateIds.length = idsLength kind
  priceExp : Int8
  qtyExp : Int8
  bids : LevelGroup
  asks : LevelGroup
  symbol : Symbol

structure BestBidAskMessage where
  header : Header
  block : List UInt8
  sized : block.length = 50
  symbol : Symbol

structure TradesMessage where
  header : Header
  block : List UInt8
  sized : block.length = 18
  blockLength : ℕ
  blockLength_lt : blockLength < 65536
  trades : ℕ
  trades_lt : trades < 2 ^ 32
  group : List UInt8
  group_sized : group.length = blockLength * trades
  symbol : Symbol

inductive Message where
  | depth (m : DepthMessage)
  | bestBidAsk (m : BestBidAskMessage)
  | trades (m : TradesMessage)

/-! ### Encoding -/

def encodeHeader (h : Header) (templateId : UInt16) : List UInt8 :=
  toLE 2 h.blockLength.toNat ++ (toLE 2 templateId.toNat ++ (toLE 2 h.schemaId.toNat ++
    toLE 2 h.version.toNat))

def encodeInt64 (x : Int64) : List UInt8 := toLE 8 x.toUInt64.toNat

def encodeInt8 (x : Int8) : List UInt8 := toLE 1 x.toUInt8.toNat

def encodeLevel {blockLength : ℕ} (l : Level blockLength) : List UInt8 :=
  encodeInt64 l.price ++ (encodeInt64 l.quantity ++ l.padding)

def encodeGroup (g : LevelGroup) : List UInt8 :=
  toLE 2 g.blockLength ++ (toLE 2 g.levels.length ++ g.levels.flatMap encodeLevel)

def encodeSymbol (s : Symbol) : List UInt8 := toLE 1 s.name.length ++ s.name

/-- The header and the fixed block. -/
def DepthMessage.front (m : DepthMessage) : List UInt8 :=
  encodeHeader m.header m.kind.schema.templateId ++ (encodeInt64 m.eventTime ++ (m.updateIds ++
    (encodeInt8 m.priceExp ++ encodeInt8 m.qtyExp)))

def DepthMessage.encode (m : DepthMessage) : List UInt8 :=
  m.front ++ (encodeGroup m.bids ++ (encodeGroup m.asks ++ encodeSymbol m.symbol))

def BestBidAskMessage.encode (m : BestBidAskMessage) : List UInt8 :=
  encodeHeader m.header kBinanceBestBidAsk.templateId ++ (m.block ++ encodeSymbol m.symbol)

def TradesMessage.encode (m : TradesMessage) : List UInt8 :=
  encodeHeader m.header kBinanceTrades.templateId ++ (m.block ++
    (toLE 2 m.blockLength ++ (toLE 4 m.trades ++ (m.group ++ encodeSymbol m.symbol))))

def Message.encode : Message → List UInt8
  | .depth m => m.encode
  | .bestBidAsk m => m.encode
  | .trades m => m.encode

/-! ### What the messages say -/

/-- One update per level of the group. -/
def LevelGroup.updates (g : LevelGroup) (update : Int64 → Int64 → MarketUpdate) :
    List MarketUpdate :=
  g.levels.map (fun l => update l.price l.quantity)

def DepthMessage.update (m : DepthMessage) (instrumentId : UInt32) (recvTsc : UInt64) (side : Side)
    (price quantity : Int64) : MarketUpdate :=
  ⟨instrumentId, side, price, quantity, m.priceExp, m.qtyExp, m.eventTime, recvTsc⟩

/-- A BUY update per bid, then a SELL update per ask. -/
def DepthMessage.updates (m : DepthMessage) (instrumentId : UInt32) (recvTsc : UInt64) :
    List MarketUpdate :=
  m.bids.updates (m.update instrumentId recvTsc .buy) ++
    m.asks.updates (m.update instrumentId recvTsc .sell)

/-! ### Lengths -/

@[simp] theorem length_encodeHeader (h : Header) (templateId : UInt16) :
    (encodeHeader h templateId).length = 8 := by
  simp [encodeHeader]

@[simp] theorem length_encodeInt64 (x : Int64) : (encodeInt64 x).length = 8 := length_toLE _ _

@[simp] theorem length_encodeInt8 (x : Int8) : (encodeInt8 x).length = 1 := length_toLE _ _

@[simp] theorem length_encodeSymbol (s : Symbol) : (encodeSymbol s).length = 1 + s.name.length := by
  simp [encodeSymbol]

theorem length_encodeLevel {blockLength : ℕ} (l : Level blockLength) :
    (encodeLevel l).length = blockLength := by
  have hsized := l.sized
  simp only [encodeLevel, List.length_append, length_encodeInt64]
  omega

theorem length_flatMap_encodeLevel {blockLength : ℕ} (ls : List (Level blockLength)) :
    (ls.flatMap encodeLevel).length = blockLength * ls.length := by
  induction ls with
  | nil => simp
  | cons l ls ih =>
    rw [List.flatMap_cons, List.length_append, length_encodeLevel, ih, List.length_cons,
      Nat.mul_succ, Nat.add_comm]

theorem length_encodeGroup (g : LevelGroup) :
    (encodeGroup g).length = 4 + g.blockLength * g.levels.length := by
  simp only [encodeGroup, List.length_append, length_toLE, length_flatMap_encodeLevel]
  omega

theorem DepthMessage.length_front (m : DepthMessage) :
    m.front.length = bidsStart m.kind.schema := by
  have hsized := m.sized
  simp only [front, List.length_append, length_encodeHeader, length_encodeInt64, length_encodeInt8,
    hsized, bidsStart]
  cases m.kind with
  | diff => rfl
  | snapshot => rfl

/-! ### Reading the fields back -/

theorem ofInt_toUInt64 (x : Int64) : Int64.ofInt (x.toUInt64.toNat : ℤ) = x := by
  apply Int64.toBitVec_inj.mp
  simp

theorem ofInt_toUInt8 (x : Int8) : Int8.ofInt (x.toUInt8.toNat : ℤ) = x := by
  apply Int8.toBitVec_inj.mp
  simp

/-- A word is read back at the length of what precedes it. -/
theorem readLe_at {w n offset : ℕ} {pre : List UInt8} (hpre : pre.length = offset)
    (hn : n < 256 ^ w) (tail : List UInt8) : readLe w (pre ++ (toLE w n ++ tail)) offset = n := by
  subst hpre
  have h := readLe_append_length w pre (toLE w n ++ tail) 0
  rw [Nat.add_zero] at h
  rw [h, readLe_toLE, Nat.mod_eq_of_lt hn]

theorem readScaled_at {offset : ℕ} {pre : List UInt8} (hpre : pre.length = offset) (x : Int64)
    (tail : List UInt8) : readScaled (pre ++ (encodeInt64 x ++ tail)) offset .int64 = x := by
  have hlt := x.toUInt64.toNat_lt
  rw [readScaled, encodeInt64, readLe_at hpre (by simpa using hlt), ofInt_toUInt64]

theorem readInt8_at {offset : ℕ} {pre : List UInt8} (hpre : pre.length = offset) (x : Int8)
    (tail : List UInt8) :
    Int8.ofInt (readLe 1 (pre ++ (encodeInt8 x ++ tail)) offset) = x := by
  have hlt := x.toUInt8.toNat_lt
  rw [encodeInt8, readLe_at hpre (by simpa using hlt), ofInt_toUInt8]

theorem readTemplateId (h : Header) (templateId : UInt16) (tail : List UInt8) :
    UInt16.ofNat (readLe 2 (encodeHeader h templateId ++ tail) 2) = templateId := by
  have hlt := templateId.toNat_lt
  have hsplit : encodeHeader h templateId ++ tail = toLE 2 h.blockLength.toNat ++
      (toLE 2 templateId.toNat ++ (toLE 2 h.schemaId.toNat ++ toLE 2 h.version.toNat ++ tail)) := by
    simp only [encodeHeader, List.append_assoc]
  rw [hsplit, readLe_at (length_toLE 2 _) (by simpa using hlt), UInt16.ofNat_toNat]

/-- The level loop reads an encoded group back. -/
theorem levelLoop_levels {schema : MessageSchema} (hprice : schema.priceField = ⟨0, .int64⟩)
    (hqty : schema.qtyField = ⟨8, .int64⟩) {blockLength : ℕ} (ls : List (Level blockLength))
    (update : Int64 → Int64 → MarketUpdate) {offset : ℕ} {pre : List UInt8}
    (hpre : pre.length = offset) (tail : List UInt8) :
    (levelLoop (pre ++ (ls.flatMap encodeLevel ++ tail)) schema blockLength update ls.length
      offset).1 = ls.map (fun l => update l.price l.quantity) := by
  induction ls generalizing offset pre with
  | nil => rfl
  | cons l ls ih =>
    have hlength := length_encodeLevel l
    have hmsg : pre ++ ((l :: ls).flatMap encodeLevel ++ tail) =
        pre ++ encodeLevel l ++ (ls.flatMap encodeLevel ++ tail) := by
      simp only [List.flatMap_cons, List.append_assoc]
    have hread : ∀ tail', readScaled (pre ++ encodeLevel l ++ tail') offset .int64 = l.price := by
      intro tail'
      rw [encodeLevel, List.append_assoc, List.append_assoc]
      exact readScaled_at hpre l.price _
    have hread' : ∀ tail',
        readScaled (pre ++ encodeLevel l ++ tail') (offset + 8) .int64 = l.quantity := by
      intro tail'
      have hsplit : pre ++ encodeLevel l ++ tail' =
          pre ++ encodeInt64 l.price ++ (encodeInt64 l.quantity ++ (l.padding ++ tail')) := by
        simp only [encodeLevel, List.append_assoc]
      rw [hsplit]
      exact readScaled_at (by rw [List.length_append, hpre, length_encodeInt64]) l.quantity _
    have hfits : ¬ offset + blockLength >
        (pre ++ encodeLevel l ++ (ls.flatMap encodeLevel ++ tail)).length := by
      simp only [List.length_append]
      omega
    rw [hmsg, List.length_cons, levelLoop, if_neg hfits, hprice, hqty]
    dsimp only
    rw [Nat.add_zero, hread, hread', ih (by rw [List.length_append, hpre, hlength]),
      List.map_cons]

theorem readGroup {g : LevelGroup} {offset : ℕ} {pre : List UInt8} (hpre : pre.length = offset)
    (tail : List UInt8) :
    readLe 2 (pre ++ (encodeGroup g ++ tail)) offset = g.blockLength ∧
      readLe 2 (pre ++ (encodeGroup g ++ tail)) (offset + 2) = g.levels.length := by
  have hsplit : pre ++ (encodeGroup g ++ tail) = pre ++ (toLE 2 g.blockLength ++
      (toLE 2 g.levels.length ++ (g.levels.flatMap encodeLevel ++ tail))) := by
    simp only [encodeGroup, List.append_assoc]
  refine ⟨?_, ?_⟩
  · rw [hsplit]
    exact readLe_at hpre g.blockLength_lt _
  · rw [hsplit, ← List.append_assoc]
    exact readLe_at (by rw [List.length_append, hpre, length_toLE]) g.levels_lt _

theorem readSymbol {s : Symbol} {offset : ℕ} {pre : List UInt8} (hpre : pre.length = offset)
    (tail : List UInt8) :
    readLe 1 (pre ++ (encodeSymbol s ++ tail)) offset = s.name.length ∧
      ((pre ++ (encodeSymbol s ++ tail)).drop (offset + 1)).take s.name.length = s.name := by
  have hsplit : pre ++ (encodeSymbol s ++ tail) =
      pre ++ (toLE 1 s.name.length ++ (s.name ++ tail)) := by
    simp only [encodeSymbol, List.append_assoc]
  refine ⟨?_, ?_⟩
  · rw [hsplit]
    exact readLe_at hpre s.length_lt _
  · rw [hsplit, ← List.append_assoc,
      List.drop_left' (by rw [List.length_append, hpre, length_toLE]), List.take_left' rfl]

/-- The level loop on an encoded group that starts after its header. -/
theorem levelLoop_group {schema : MessageSchema} (hprice : schema.priceField = ⟨0, .int64⟩)
    (hqty : schema.qtyField = ⟨8, .int64⟩) (g : LevelGroup)
    (update : Int64 → Int64 → MarketUpdate) {offset : ℕ} {pre : List UInt8}
    (hpre : pre.length = offset) (tail : List UInt8) :
    (levelLoop (pre ++ (encodeGroup g ++ tail)) schema g.blockLength update g.levels.length
      (offset + 4)).1 = g.updates update := by
  have hsplit : pre ++ (encodeGroup g ++ tail) = pre ++ (toLE 2 g.blockLength ++
      toLE 2 g.levels.length) ++ (g.levels.flatMap encodeLevel ++ tail) := by
    simp only [encodeGroup, List.append_assoc]
  rw [hsplit]
  exact levelLoop_levels hprice hqty g.levels update
    (by simp only [List.length_append, hpre, length_toLE]) tail

/-! ### Depth messages -/

namespace DepthMessage

variable (m : DepthMessage) (rest : List UInt8)

theorem priceField_eq : m.kind.schema.priceField = ⟨0, .int64⟩ := by
  cases m.kind <;> rfl

theorem qtyField_eq : m.kind.schema.qtyField = ⟨8, .int64⟩ := by
  cases m.kind <;> rfl

/-- Everything before the ask group. -/
def throughBids : List UInt8 := m.front ++ encodeGroup m.bids

/-- Everything before the symbol. -/
def throughAsks : List UInt8 := m.throughBids ++ encodeGroup m.asks

theorem encode_split_bids : m.encode ++ rest = m.front ++ (encodeGroup m.bids ++
    (encodeGroup m.asks ++ (encodeSymbol m.symbol ++ rest))) := by
  simp only [encode, List.append_assoc]

theorem encode_split_asks : m.encode ++ rest =
    m.throughBids ++ (encodeGroup m.asks ++ (encodeSymbol m.symbol ++ rest)) := by
  simp only [encode, throughBids, List.append_assoc]

theorem encode_split_symbol : m.encode ++ rest =
    m.throughAsks ++ (encodeSymbol m.symbol ++ rest) := by
  simp only [encode, throughAsks, throughBids, List.append_assoc]

theorem scan_bids : bidBlockLen (m.encode ++ rest) m.kind.schema = m.bids.blockLength ∧
    numBids (m.encode ++ rest) m.kind.schema = m.bids.levels.length := by
  rw [encode_split_bids]
  exact readGroup m.length_front _

theorem length_throughBids :
    m.throughBids.length = bidsEnd (m.encode ++ rest) m.kind.schema := by
  rw [throughBids, List.length_append, length_front, length_encodeGroup, bidsEnd,
    (m.scan_bids rest).1, (m.scan_bids rest).2]
  omega

theorem scan_asks : askBlockLen (m.encode ++ rest) m.kind.schema = m.asks.blockLength ∧
    numAsks (m.encode ++ rest) m.kind.schema = m.asks.levels.length := by
  unfold askBlockLen numAsks
  rw [← length_throughBids, encode_split_asks]
  exact readGroup rfl _

theorem length_throughAsks :
    m.throughAsks.length = asksEnd (m.encode ++ rest) m.kind.schema := by
  rw [throughAsks, List.length_append, m.length_throughBids rest, length_encodeGroup, asksEnd,
    (m.scan_asks rest).1, (m.scan_asks rest).2]
  omega

theorem scan_symbol : symLen (m.encode ++ rest) m.kind.schema = m.symbol.name.length ∧
    SbeDecoder.symbol (m.encode ++ rest) m.kind.schema = m.symbol.name := by
  have hlen : symLen (m.encode ++ rest) m.kind.schema = m.symbol.name.length := by
    unfold symLen
    rw [← length_throughAsks, encode_split_symbol]
    exact (readSymbol rfl _).1
  refine ⟨hlen, ?_⟩
  unfold SbeDecoder.symbol
  rw [hlen, ← length_throughAsks, encode_split_symbol]
  exact (readSymbol rfl _).2

theorem length_encode : m.encode.length =
    asksEnd (m.encode ++ rest) m.kind.schema + 1 + symLen (m.encode ++ rest) m.kind.schema := by
  have hsplit := congrArg List.length (m.encode_split_symbol rest)
  rw [List.length_append, List.length_append, List.length_append, length_encodeSymbol,
    m.length_throughAsks rest] at hsplit
  rw [(m.scan_symbol rest).1]
  omega

/-- The fields of the fixed block are read back. -/
theorem levelUpdate_encode (recvTsc : UInt64) (instrumentId : UInt32) :
    levelUpdate (m.encode ++ rest) m.kind.schema recvTsc instrumentId =
      m.update instrumentId recvTsc := by
  have hsized := m.sized
  have htime : readScaled (m.encode ++ rest) (8 + m.kind.schema.eventTimeOffset) .int64 =
      m.eventTime := by
    have hoffset : m.kind.schema.eventTimeOffset = 0 := by cases m.kind <;> rfl
    rw [hoffset]
    simp only [encode, front, List.append_assoc]
    exact readScaled_at (length_encodeHeader _ _) _ _
  have hprice : Int8.ofInt (readLe 1 (m.encode ++ rest) (8 + m.kind.schema.priceExpOffset)) =
      m.priceExp := by
    have hsplit : m.encode ++ rest = encodeHeader m.header m.kind.schema.templateId ++
        encodeInt64 m.eventTime ++ m.updateIds ++ (encodeInt8 m.priceExp ++ (encodeInt8 m.qtyExp ++
          (encodeGroup m.bids ++ (encodeGroup m.asks ++ (encodeSymbol m.symbol ++ rest))))) := by
      simp only [encode, front, List.append_assoc]
    rw [hsplit]
    refine readInt8_at ?_ _ _
    simp only [List.length_append, length_encodeHeader, length_encodeInt64, hsized]
    cases m.kind <;> rfl
  have hqty : Int8.ofInt (readLe 1 (m.encode ++ rest) (8 + m.kind.schema.qtyExpOffset)) =
      m.qtyExp := by
    have hsplit : m.encode ++ rest = encodeHeader m.header m.kind.schema.templateId ++
        encodeInt64 m.eventTime ++ m.updateIds ++ encodeInt8 m.priceExp ++ (encodeInt8 m.qtyExp ++
          (encodeGroup m.bids ++ (encodeGroup m.asks ++ (encodeSymbol m.symbol ++ rest)))) := by
      simp only [encode, front, List.append_assoc]
    rw [hsplit]
    refine readInt8_at ?_ _ _
    simp only [List.length_append, length_encodeHeader, length_encodeInt64, length_encodeInt8,
      hsized]
    cases m.kind <;> rfl
  have hunit : m.kind.schema.eventTimeUnit = .microseconds := by cases m.kind <;> rfl
  funext side price quantity
  simp only [levelUpdate, htime, hprice, hqty, hunit, eventTimeUs]
  rfl

theorem levelLoop_bids (update : Int64 → Int64 → MarketUpdate) :
    levelLoop (m.encode ++ rest) m.kind.schema (bidBlockLen (m.encode ++ rest) m.kind.schema)
        update (numBids (m.encode ++ rest) m.kind.schema) (bidsStart m.kind.schema + 4) =
      (m.bids.updates update, bidsEnd (m.encode ++ rest) m.kind.schema) := by
  have hlength := m.length_encode rest
  have hasks := bidsEnd_le_asksEnd (m.encode ++ rest) m.kind.schema
  apply Prod.ext
  · rw [(m.scan_bids rest).1, (m.scan_bids rest).2, encode_split_bids]
    exact levelLoop_group m.priceField_eq m.qtyField_eq m.bids update m.length_front _
  · refine (levelLoop_of_fits m.kind.schema ?_ update).2
    rw [← bidsEnd, List.length_append]
    omega

theorem levelLoop_asks (update : Int64 → Int64 → MarketUpdate) :
    (levelLoop (m.encode ++ rest) m.kind.schema (askBlockLen (m.encode ++ rest) m.kind.schema)
        update (numAsks (m.encode ++ rest) m.kind.schema)
        (bidsEnd (m.encode ++ rest) m.kind.schema + 4)).1 = m.asks.updates update := by
  rw [(m.scan_asks rest).1, (m.scan_asks rest).2, ← m.length_throughBids rest, encode_split_asks]
  exact levelLoop_group m.priceField_eq m.qtyField_eq m.asks update rfl _

theorem decode_encode {registry : VenueRegistry} {venueName : List UInt8} {id : UInt32}
    (hlookup : registry.lookup venueName m.symbol.name = .ok id) (recvTsc : UInt64) :
    decode (m.encode ++ rest) m.kind.schema registry venueName recvTsc =
      (m.encode.length, m.updates id recvTsc) := by
  have hlength := m.length_encode rest
  have hbids := bidsStart_le_bidsEnd (m.encode ++ rest) m.kind.schema
  have hasks := bidsEnd_le_asksEnd (m.encode ++ rest) m.kind.schema
  have hstart : bidsStart m.kind.schema = 8 + m.kind.schema.fixedBlockSize := rfl
  have hle : m.encode.length ≤ (m.encode ++ rest).length := by
    rw [List.length_append]
    omega
  unfold decode
  rw [if_neg (by omega), if_neg (by omega), if_neg (by omega), if_neg (by omega),
    if_neg (by omega), if_neg (by omega), (m.scan_symbol rest).2, hlookup]
  simp only [levelUpdate_encode, levelLoop_bids, levelLoop_asks]
  rw [← hlength]
  rfl

end DepthMessage

/-! ### Skipped messages -/

theorem BestBidAskMessage.length_encode (m : BestBidAskMessage) :
    m.encode.length = 58 + (1 + m.symbol.name.length) := by
  have hsized := m.sized
  simp only [encode, List.length_append, length_encodeHeader, length_encodeSymbol, hsized]
  omega

theorem BestBidAskMessage.measure_encode (m : BestBidAskMessage) (rest : List UInt8) :
    SbeDecoder.measure (m.encode ++ rest) kBinanceBestBidAsk = m.encode.length := by
  have hlength := m.length_encode
  have hsplit : m.encode ++ rest = encodeHeader m.header kBinanceBestBidAsk.templateId ++ m.block ++
      (encodeSymbol m.symbol ++ rest) := by
    simp only [encode, List.append_assoc]
  have hsym : readLe 1 (m.encode ++ rest) 58 = m.symbol.name.length := by
    rw [hsplit]
    refine (readSymbol ?_ _).1
    rw [List.length_append, length_encodeHeader, m.sized]
  have hle : m.encode.length ≤ (m.encode ++ rest).length := by
    rw [List.length_append]
    omega
  unfold SbeDecoder.measure
  rw [if_neg (by omega)]
  change ((measureVardata (m.encode ++ rest) 1 58)).getD 0 = _
  rw [measureVardata, if_neg (by omega), hsym, measureVardata, Option.getD_some, hlength]

theorem TradesMessage.length_encode (m : TradesMessage) :
    m.encode.length = 26 + (6 + m.blockLength * m.trades) + (1 + m.symbol.name.length) := by
  have hsized := m.sized
  have hgroup := m.group_sized
  simp only [encode, List.length_append, length_encodeHeader, length_encodeSymbol, length_toLE,
    hsized, hgroup]
  omega

theorem TradesMessage.measure_encode (m : TradesMessage) (rest : List UInt8) :
    SbeDecoder.measure (m.encode ++ rest) kBinanceTrades = m.encode.length := by
  have hlength := m.length_encode
  have hblock : readLe 2 (m.encode ++ rest) 26 = m.blockLength := by
    have hsplit : m.encode ++ rest = encodeHeader m.header kBinanceTrades.templateId ++ m.block ++
        (toLE 2 m.blockLength ++ (toLE 4 m.trades ++ (m.group ++
          (encodeSymbol m.symbol ++ rest)))) := by
      simp only [encode, List.append_assoc]
    rw [hsplit]
    refine readLe_at ?_ m.blockLength_lt _
    rw [List.length_append, length_encodeHeader, m.sized]
  have htrades : readLe 4 (m.encode ++ rest) 28 = m.trades := by
    have hsplit : m.encode ++ rest = encodeHeader m.header kBinanceTrades.templateId ++ m.block ++
        toLE 2 m.blockLength ++ (toLE 4 m.trades ++ (m.group ++
          (encodeSymbol m.symbol ++ rest))) := by
      simp only [encode, List.append_assoc]
    rw [hsplit]
    refine readLe_at ?_ m.trades_lt _
    rw [List.length_append, List.length_append, length_encodeHeader, m.sized, length_toLE]
  have hsym : readLe 1 (m.encode ++ rest) (26 + (6 + m.blockLength * m.trades)) =
      m.symbol.name.length := by
    have hsplit : m.encode ++ rest = encodeHeader m.header kBinanceTrades.templateId ++ m.block ++
        toLE 2 m.blockLength ++ toLE 4 m.trades ++ m.group ++
          (encodeSymbol m.symbol ++ rest) := by
      simp only [encode, List.append_assoc]
    rw [hsplit]
    refine (readSymbol ?_ _).1
    simp only [List.length_append, length_encodeHeader, m.sized, length_toLE, m.group_sized]
    omega
  have hle : m.encode.length ≤ (m.encode ++ rest).length := by
    rw [List.length_append]
    omega
  unfold SbeDecoder.measure
  rw [if_neg (by omega)]
  change ((measureGroups (m.encode ++ rest) .uint32 1 26).bind
    (measureVardata (m.encode ++ rest) 1)).getD 0 = _
  simp only [measureGroups]
  rw [if_neg (by omega), if_neg (by omega), hblock, htrades, Option.bind_some, measureVardata,
    if_neg (by omega), hsym, measureVardata, Option.getD_some, hlength]

/-! ### Frames -/

/-- The parser that `main` builds for the venue. -/
def binanceParser (registry : VenueRegistry) (venueName : List UInt8) : SBEVenueParser :=
  ⟨binanceSchemas, registry, venueName⟩

/-- The updates of a list of messages: the levels of the depth messages, each
message with its own reading of the time stamp counter. -/
def updates (idOf : List UInt8 → UInt32) : (tsc : ℕ → UInt64) → List Message → List MarketUpdate
  | _, [] => []
  | tsc, .depth m :: ms =>
    m.updates (idOf m.symbol.name) (tsc 0) ++ updates idOf (fun n => tsc (n + 1)) ms
  | tsc, .bestBidAsk _ :: ms => updates idOf tsc ms
  | tsc, .trades _ :: ms => updates idOf tsc ms

def depthCount : List Message → ℕ
  | [] => 0
  | .depth _ :: ms => depthCount ms + 1
  | .bestBidAsk _ :: ms => depthCount ms
  | .trades _ :: ms => depthCount ms

variable {registry : VenueRegistry} {venueName : List UInt8}

namespace DepthMessage

theorem skip_eq (m : DepthMessage) : m.kind.schema.skip = false := by
  cases m.kind <;> rfl

theorem lookup_schema (m : DepthMessage) (rest : List UInt8) :
    (binanceParser registry venueName).schemas.lookup
      (UInt16.ofNat (readLe 2 (m.encode ++ rest) 2)) = some m.kind.schema := by
  rw [encode, front, List.append_assoc, List.append_assoc, readTemplateId]
  cases m.kind <;> rfl

theorem handle_eq_decode (m : DepthMessage) (msg : List UInt8) (recvTsc : UInt64) :
    (binanceParser registry venueName).handle m.kind.schema msg recvTsc =
      decode msg m.kind.schema registry venueName recvTsc := by
  rw [SBEVenueParser.handle, if_neg (by rw [m.skip_eq]; exact Bool.false_ne_true)]
  rfl

theorem four_le_length (m : DepthMessage) (rest : List UInt8) : 4 ≤ m.encode.length := by
  have hlength := m.length_encode rest
  have hstart := bidsStart_le_bidsEnd (m.encode ++ rest) m.kind.schema
  have hend := bidsEnd_le_asksEnd (m.encode ++ rest) m.kind.schema
  omega

end DepthMessage

theorem parse_depth (m : DepthMessage) {id : UInt32}
    (hlookup : registry.lookup venueName m.symbol.name = .ok id) (tsc : ℕ → UInt64)
    (rest : List UInt8) :
    (binanceParser registry venueName).parse tsc (m.encode ++ rest) = m.updates id (tsc 0) ++
      (binanceParser registry venueName).parse (fun n => tsc (n + 1)) rest := by
  have hhandle : (binanceParser registry venueName).handle m.kind.schema (m.encode ++ rest)
      (tsc 0) = (m.encode.length, m.updates id (tsc 0)) := by
    rw [m.handle_eq_decode]
    exact m.decode_encode rest hlookup (tsc 0)
  rw [SBEVenueParser.parse_message (m.four_le_length rest) (m.lookup_schema rest) hhandle,
    SBEVenueParser.tscAfter, if_neg (by rw [m.skip_eq]; exact Bool.false_ne_true)]

theorem parse_bestBidAsk (m : BestBidAskMessage) (tsc : ℕ → UInt64) (rest : List UInt8) :
    (binanceParser registry venueName).parse tsc (m.encode ++ rest) =
      (binanceParser registry venueName).parse tsc rest := by
  have hlength := m.length_encode
  have hschema : (binanceParser registry venueName).schemas.lookup
      (UInt16.ofNat (readLe 2 (m.encode ++ rest) 2)) = some kBinanceBestBidAsk := by
    rw [BestBidAskMessage.encode, List.append_assoc, readTemplateId]
    rfl
  have hhandle : (binanceParser registry venueName).handle kBinanceBestBidAsk (m.encode ++ rest)
      (tsc 0) = (m.encode.length, []) := by
    rw [SBEVenueParser.handle, if_pos (show kBinanceBestBidAsk.skip = true from rfl),
      m.measure_encode]
  exact SBEVenueParser.parse_message (by omega) hschema hhandle

theorem parse_trades (m : TradesMessage) (tsc : ℕ → UInt64) (rest : List UInt8) :
    (binanceParser registry venueName).parse tsc (m.encode ++ rest) =
      (binanceParser registry venueName).parse tsc rest := by
  have hlength := m.length_encode
  have hschema : (binanceParser registry venueName).schemas.lookup
      (UInt16.ofNat (readLe 2 (m.encode ++ rest) 2)) = some kBinanceTrades := by
    rw [TradesMessage.encode, List.append_assoc, readTemplateId]
    rfl
  have hhandle : (binanceParser registry venueName).handle kBinanceTrades (m.encode ++ rest)
      (tsc 0) = (m.encode.length, []) := by
    rw [SBEVenueParser.handle, if_pos (show kBinanceTrades.skip = true from rfl), m.measure_encode]
  exact SBEVenueParser.parse_message (by omega) hschema hhandle

/-- Parsing encoded messages followed by any bytes t enqueues the updates of the
messages, in order, and then what parsing t enqueues. -/
theorem parse_encode (idOf : List UInt8 → UInt32) (ms : List Message)
    (hregistered : ∀ m, .depth m ∈ ms →
      registry.lookup venueName m.symbol.name = .ok (idOf m.symbol.name))
    (tsc : ℕ → UInt64) (t : List UInt8) :
    (binanceParser registry venueName).parse tsc (ms.flatMap Message.encode ++ t) =
      updates idOf tsc ms ++
        (binanceParser registry venueName).parse (fun n => tsc (n + depthCount ms)) t := by
  induction ms generalizing tsc with
  | nil => rfl
  | cons m ms ih =>
    have hrest := fun m' hm' => hregistered m' (List.mem_cons_of_mem m hm')
    rw [List.flatMap_cons, List.append_assoc]
    cases m with
    | depth m =>
      rw [Message.encode, parse_depth m (hregistered m List.mem_cons_self), ih hrest, updates,
        depthCount, List.append_assoc]
      simp only [Nat.add_assoc]
    | bestBidAsk m =>
      rw [Message.encode, parse_bestBidAsk, ih hrest]
      rfl
    | trades m =>
      rw [Message.encode, parse_trades, ih hrest]
      rfl

/-- A depth update with one bid and one padded ask. -/
def sampleDepth : DepthMessage where
  kind := .diff
  header := ⟨26, 1, 0⟩
  eventTime := 1700000000000000
  updateIds := List.replicate 16 0
  sized := rfl
  priceExp := -2
  qtyExp := -3
  bids := ⟨16, [⟨100, 7, [], rfl⟩], by decide, by decide⟩
  asks := ⟨20, [⟨101, 3, [1, 2, 3, 4], rfl⟩], by decide, by decide⟩
  symbol := ⟨[66, 84, 67], by decide⟩

/-- The sample for a registry that knows its symbol, followed by a stray byte. -/
theorem parse_encode_sampleDepth :
    (binanceParser (.ofRows [⟨[66], [66, 84, 67]⟩]) [66]).parse (fun n => UInt64.ofNat n)
        ([.depth sampleDepth].flatMap Message.encode ++ [255]) =
      updates (fun _ => 0) (fun n => UInt64.ofNat n) [.depth sampleDepth] ++
        (binanceParser (.ofRows [⟨[66], [66, 84, 67]⟩]) [66]).parse
          (fun n => UInt64.ofNat (n + 1)) [255] :=
  parse_encode (fun _ => 0) [.depth sampleDepth]
    (by
      intro m hm
      obtain rfl : m = sampleDepth := by simpa using hm
      rfl)
    (fun n => UInt64.ofNat n) [255]

end HftSystem.SbeWire
