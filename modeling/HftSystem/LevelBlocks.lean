import HftSystem.SbeWire
import Mathlib.Order.Interval.Finset.Nat

/-!
Where the decoder reads the levels of a depth message. The blocks of the two groups
follow the lengths and the counts on the wire, while the places of the price and
the quantity within a block come from the schema. The levels have bytes of their
own exactly when the blocks hold the 16 bytes that a level takes.
-/
namespace HftSystem.SbeDecoder

open ByteWords

/-! ### Blocks -/

/-- The block of one level in the message. -/
structure LevelBlock where
  side : Side
  start : ℕ
  len : ℕ

namespace LevelBlock

variable (b : LevelBlock) (schema : MessageSchema)

def bytes : Finset ℕ := Finset.Ico b.start (b.start + b.len)

/-- The 8 bytes of the price. -/
def priceBytes : Finset ℕ :=
  Finset.Ico (b.start + schema.priceField.offset) (b.start + schema.priceField.offset + 8)

def qtyBytes : Finset ℕ :=
  Finset.Ico (b.start + schema.qtyField.offset) (b.start + schema.qtyField.offset + 8)

/-- The update that the decoder makes of the block. -/
def update (msg : List UInt8) (recvTsc : UInt64) (instrumentId : UInt32) : MarketUpdate :=
  levelUpdate msg schema recvTsc instrumentId b.side
    (readScaled msg (b.start + schema.priceField.offset) schema.priceField.rawType)
    (readScaled msg (b.start + schema.qtyField.offset) schema.qtyField.rawType)

end LevelBlock

/-- The blocks of a group that starts at an offset. -/
def groupBlocks (side : Side) (offset blockLen levels : ℕ) : List LevelBlock :=
  (List.range levels).map (fun i => ⟨side, offset + blockLen * i, blockLen⟩)

def levelBlocks (msg : List UInt8) (schema : MessageSchema) : List LevelBlock :=
  groupBlocks .buy (bidsStart schema + 4) (bidBlockLen msg schema) (numBids msg schema) ++
    groupBlocks .sell (bidsEnd msg schema + 4) (askBlockLen msg schema) (numAsks msg schema)

/-- Every level has its price and its quantity inside its block, and no two blocks meet. -/
def OwnBytes (schema : MessageSchema) (bs : List LevelBlock) : Prop :=
  (∀ b ∈ bs, b.priceBytes schema ⊆ b.bytes ∧ b.qtyBytes schema ⊆ b.bytes) ∧
    bs.Pairwise (fun b b' => Disjoint b.bytes b'.bytes)

/-! ### The decoder reads the blocks -/

/-- The level loop on a group that fits makes an update of each of its blocks. -/
theorem levelLoop_blocks {msg : List UInt8} (schema : MessageSchema) {blockLen levels offset : ℕ}
    (hfits : offset + blockLen * levels ≤ msg.length) (recvTsc : UInt64) (id : UInt32)
    (side : Side) :
    levelLoop msg schema blockLen (levelUpdate msg schema recvTsc id side) levels offset =
      ((groupBlocks side offset blockLen levels).map (fun b => b.update schema msg recvTsc id),
        offset + blockLen * levels) := by
  induction levels generalizing offset with
  | zero => rfl
  | succ levels ih =>
    rw [Nat.mul_succ] at hfits
    have hshift : groupBlocks side offset blockLen (levels + 1) =
        ⟨side, offset, blockLen⟩ :: groupBlocks side (offset + blockLen) blockLen levels := by
      unfold groupBlocks
      rw [List.range_succ_eq_map, List.map_cons, List.map_map]
      congr 1
      refine List.map_congr_left (fun i _ => ?_)
      simp only [Function.comp_apply, Nat.succ_eq_add_one, Nat.mul_succ]
      congr 1
      omega
    rw [levelLoop, if_neg (by omega), ih (by omega), hshift, List.map_cons, Nat.mul_succ]
    dsimp only
    congr 1
    omega

/-- A message that passes the guards is read block by block. -/
theorem decode_of_scanned {msg : List UInt8} {schema : MessageSchema} {registry : VenueRegistry}
    {venueName : List UInt8} (recvTsc : UInt64) {id : UInt32} (hscanned : Scanned msg schema)
    (hfits : asksEnd msg schema + 1 + symLen msg schema ≤ msg.length)
    (hlookup : registry.lookup venueName (symbol msg schema) = .ok id) :
    decode msg schema registry venueName recvTsc =
      (asksEnd msg schema + 1 + symLen msg schema,
        (levelBlocks msg schema).map (fun b => b.update schema msg recvTsc id)) := by
  have hbids := hscanned.bids
  have hasks := hscanned.asks
  have hsymbol := hscanned.symbol
  have hstart : bidsStart schema = 8 + schema.fixedBlockSize := rfl
  have hbidsFit : bidsStart schema + 4 + bidBlockLen msg schema * numBids msg schema ≤
      msg.length := by
    rw [← bidsEnd]
    omega
  have hasksFit : bidsEnd msg schema + 4 + askBlockLen msg schema * numAsks msg schema ≤
      msg.length := by
    rw [← asksEnd]
    omega
  unfold decode
  rw [if_neg (by omega), if_neg (by omega), if_neg (by omega), if_neg (by omega),
    if_neg (by omega), if_neg (by omega), hlookup]
  dsimp only
  rw [levelLoop_blocks schema hbidsFit]
  dsimp only
  rw [← bidsEnd, levelLoop_blocks schema hasksFit, levelBlocks, List.map_append]

theorem decode_consumed {msg : List UInt8} {schema : MessageSchema} {registry : VenueRegistry}
    {venueName : List UInt8} {recvTsc : UInt64}
    (hpos : 0 < (decode msg schema registry venueName recvTsc).1) :
    ∃ id, decode msg schema registry venueName recvTsc =
      (asksEnd msg schema + 1 + symLen msg schema,
        (levelBlocks msg schema).map (fun b => b.update schema msg recvTsc id)) := by
  have hspec := decode_spec msg schema registry venueName recvTsc
  cases hresult : decode msg schema registry venueName recvTsc with
  | mk c us =>
    rw [hresult] at hspec hpos
    cases hspec with
    | short _ => cases hpos
    | unknown _ _ => cases hpos
    | decoded hscanned hfits hlookup _ =>
      exact ⟨_, hresult.symm.trans (decode_of_scanned recvTsc hscanned hfits hlookup)⟩

/-! ### Blocks of one group -/

theorem mem_groupBlocks {side : Side} {offset blockLen levels : ℕ} {b : LevelBlock} :
    b ∈ groupBlocks side offset blockLen levels ↔
      ∃ i < levels, b = ⟨side, offset + blockLen * i, blockLen⟩ := by
  simp only [groupBlocks, List.mem_map, List.mem_range]
  constructor
  · rintro ⟨i, hi, rfl⟩
    exact ⟨i, hi, rfl⟩
  · rintro ⟨i, hi, rfl⟩
    exact ⟨i, hi, rfl⟩

theorem LevelBlock.disjoint_of_le {b b' : LevelBlock} (h : b.start + b.len ≤ b'.start) :
    Disjoint b.bytes b'.bytes := by
  refine Finset.disjoint_left.mpr (fun a ha ha' => ?_)
  have hb := (Finset.mem_Ico.mp ha).2
  have hb' := (Finset.mem_Ico.mp ha').1
  omega

/-- The blocks of a group never meet. -/
theorem groupBlocks_disjoint (side : Side) (offset blockLen levels : ℕ) :
    (groupBlocks side offset blockLen levels).Pairwise (fun b b' => Disjoint b.bytes b'.bytes) := by
  unfold groupBlocks
  rw [List.pairwise_map]
  refine List.pairwise_lt_range.imp ?_
  intro i j hij
  have hle : blockLen * (i + 1) ≤ blockLen * j := Nat.mul_le_mul_left _ hij
  rw [Nat.mul_succ] at hle
  exact LevelBlock.disjoint_of_le (by dsimp only; omega)

theorem levelBlocks_disjoint (msg : List UInt8) (schema : MessageSchema) :
    (levelBlocks msg schema).Pairwise (fun b b' => Disjoint b.bytes b'.bytes) := by
  unfold levelBlocks
  refine List.pairwise_append.mpr ⟨groupBlocks_disjoint _ _ _ _, groupBlocks_disjoint _ _ _ _, ?_⟩
  intro b hb b' hb'
  obtain ⟨i, hi, rfl⟩ := mem_groupBlocks.mp hb
  obtain ⟨j, -, rfl⟩ := mem_groupBlocks.mp hb'
  have hle : bidBlockLen msg schema * (i + 1) ≤ bidBlockLen msg schema * numBids msg schema :=
    Nat.mul_le_mul_left _ hi
  rw [Nat.mul_succ] at hle
  refine LevelBlock.disjoint_of_le ?_
  rw [bidsEnd]
  dsimp only
  omega

/-! ### The levels have their own bytes -/

/-- A block holds the price and the quantity of its level exactly when it has 16 bytes. -/
theorem LevelBlock.holds_level_iff (b : LevelBlock) (kind : DepthKind) :
    (b.priceBytes kind.schema ⊆ b.bytes ∧ b.qtyBytes kind.schema ⊆ b.bytes) ↔ 16 ≤ b.len := by
  have hprice : kind.schema.priceField.offset = 0 := by cases kind <;> rfl
  have hqty : kind.schema.qtyField.offset = 8 := by cases kind <;> rfl
  unfold priceBytes qtyBytes bytes
  rw [hprice, hqty, Finset.Ico_subset_Ico_iff (by omega), Finset.Ico_subset_Ico_iff (by omega)]
  omega

theorem forall_groupBlocks_len {side : Side} {offset blockLen levels n : ℕ} :
    (∀ b ∈ groupBlocks side offset blockLen levels, n ≤ b.len) ↔ levels = 0 ∨ n ≤ blockLen := by
  constructor
  · intro hall
    rcases Nat.eq_zero_or_pos levels with hzero | hpos
    · exact Or.inl hzero
    · exact Or.inr (hall _ (mem_groupBlocks.mpr ⟨0, hpos, rfl⟩))
  · rintro (rfl | hn) b hb
    · obtain ⟨i, hi, -⟩ := mem_groupBlocks.mp hb
      omega
    · obtain ⟨i, -, rfl⟩ := mem_groupBlocks.mp hb
      exact hn

/-- Every group that has a level has blocks of at least 16 bytes. -/
def RoomyGroups (msg : List UInt8) (schema : MessageSchema) : Prop :=
  (numBids msg schema = 0 ∨ 16 ≤ bidBlockLen msg schema) ∧
    (numAsks msg schema = 0 ∨ 16 ≤ askBlockLen msg schema)

theorem ownBytes_iff (kind : DepthKind) (msg : List UInt8) :
    OwnBytes kind.schema (levelBlocks msg kind.schema) ↔ RoomyGroups msg kind.schema := by
  unfold OwnBytes RoomyGroups
  rw [and_iff_left (levelBlocks_disjoint msg kind.schema)]
  simp only [LevelBlock.holds_level_iff]
  rw [levelBlocks, List.forall_mem_append, forall_groupBlocks_len, forall_groupBlocks_len]

theorem length_levelBlocks (msg : List UInt8) (schema : MessageSchema) :
    (levelBlocks msg schema).length = numBids msg schema + numAsks msg schema := by
  simp [levelBlocks, groupBlocks]

theorem sixteen_mul_le {levels blockLen : ℕ} (h : levels = 0 ∨ 16 ≤ blockLen) :
    16 * levels ≤ blockLen * levels := by
  rcases h with rfl | h
  · omega
  · exact Nat.mul_le_mul_right _ h

/-- Roomy groups bound the number of levels by the length of the message. -/
theorem levels_le_of_roomy {msg : List UInt8} {schema : MessageSchema}
    (hroomy : RoomyGroups msg schema) :
    numBids msg schema + numAsks msg schema ≤
      (asksEnd msg schema + 1 + symLen msg schema) / 16 := by
  have hbids := sixteen_mul_le hroomy.1
  have hasks := sixteen_mul_le hroomy.2
  rw [Nat.le_div_iff_mul_le (by decide), asksEnd, bidsEnd]
  omega

/-- In a message that is consumed, every level comes from bytes of its own, and the updates are
at most a sixteenth of the bytes, exactly when the blocks of every group in use have 16 bytes. -/
theorem decode_ownBytes_iff (kind : DepthKind) (msg : List UInt8) (registry : VenueRegistry)
    (venueName : List UInt8) (recvTsc : UInt64)
    (hpos : 0 < (decode msg kind.schema registry venueName recvTsc).1) :
    let result := decode msg kind.schema registry venueName recvTsc
    (∃ id, result.2 =
      (levelBlocks msg kind.schema).map (fun b => b.update kind.schema msg recvTsc id)) ∧
    ((OwnBytes kind.schema (levelBlocks msg kind.schema) ∧ result.2.length ≤ result.1 / 16) ↔
      RoomyGroups msg kind.schema) := by
  intro result
  obtain ⟨id, hresult⟩ := decode_consumed hpos
  refine ⟨⟨id, congrArg Prod.snd hresult⟩, ?_⟩
  have hlength : result.2.length = numBids msg kind.schema + numAsks msg kind.schema := by
    rw [show result.2 = _ from congrArg Prod.snd hresult, List.length_map, length_levelBlocks]
  have hconsumed : result.1 = asksEnd msg kind.schema + 1 + symLen msg kind.schema :=
    congrArg Prod.fst hresult
  rw [ownBytes_iff, hlength, hconsumed]
  exact and_iff_left_of_imp levels_le_of_roomy

theorem decode_ownBytes_iff_sampleDepth :
    OwnBytes kBinanceDepthDiff
      (levelBlocks (SbeWire.sampleDepth.encode ++ []) kBinanceDepthDiff) := by
  have hdecode := SbeWire.sampleDepth.decode_encode []
    (show (VenueRegistry.ofRows [⟨[66], [66, 84, 67]⟩]).lookup [66] [66, 84, 67] = .ok 0 from rfl) 0
  have hpos : 0 < (decode (SbeWire.sampleDepth.encode ++ []) kBinanceDepthDiff
      (.ofRows [⟨[66], [66, 84, 67]⟩]) [66] 0).1 := by
    rw [show kBinanceDepthDiff = SbeWire.sampleDepth.kind.schema from rfl, hdecode]
    decide
  have hroomy : RoomyGroups (SbeWire.sampleDepth.encode ++ []) kBinanceDepthDiff := by
    unfold RoomyGroups
    decide
  exact ((decode_ownBytes_iff .diff _ _ _ 0 hpos).2.mpr hroomy).1

/-- A depth update with three bids in blocks of length 0. -/
def emptyBlocks : List UInt8 :=
  [26, 0, 19, 39, 1, 0, 0, 0] ++ List.replicate 26 0 ++ [0, 0, 3, 0] ++ [16, 0, 0, 0] ++
    [3, 66, 84, 67]

/-- The 46 bytes are consumed and enqueue three updates, whose prices are read from what
follows the empty group. -/
theorem emptyBlocks_overlap :
    let result := decode emptyBlocks kBinanceDepthDiff (.ofRows [⟨[66], [66, 84, 67]⟩]) [66] 0
    result.1 = 46 ∧ result.2.length = 3 ∧ ¬ result.2.length ≤ result.1 / 16 ∧
      ¬ OwnBytes kBinanceDepthDiff (levelBlocks emptyBlocks kBinanceDepthDiff) := by
  intro result
  have hconsumed : result.1 = 46 := by decide +kernel
  have hlength : result.2.length = 3 := by decide +kernel
  refine ⟨hconsumed, hlength, by rw [hconsumed, hlength]; decide, ?_⟩
  rw [show kBinanceDepthDiff = DepthKind.diff.schema from rfl, ownBytes_iff]
  unfold RoomyGroups
  decide

end HftSystem.SbeDecoder
