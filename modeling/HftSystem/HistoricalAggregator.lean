import HftSystem.LevelBlocks

/-!
The aggregator behind the order book. It keeps mid prices in an array of 100 cells,
takes log returns from the array, and writes each update to the database with a
time in seconds. The array has no initial content of its own, the check on the
write index lets it reach 100, and the returns are taken over the whole array, so
each of these holds its promise only for some numbers of insertions.

Mid prices and their logarithms are opaque.
-/
namespace HftSystem

def tickDataSize : ℕ := 100

/-- An access to `tick_data` beyond its last cell. -/
structure OutOfBounds where
  index : ℕ
deriving DecidableEq

structure HistoricalDataAggergator (M : Type) where
  tickData : Fin tickDataSize → M
  writeIndex : ℕ := 0
  numOfElements : ℕ := 0

/-- What `computeReturns` uses of the floating-point values: the two tests of its
condition and the logarithm of a quotient. -/
structure TickArithmetic (M R : Type) where
  positive : M → Bool
  nonzero : M → Bool
  nonzero_of_positive : ∀ x, positive x = true → nonzero x = true
  logRatio : M → M → R

namespace HistoricalDataAggergator

variable {M R : Type}

/-- The argument is the mid price that the order book returns. -/
def insertTickData (a : HistoricalDataAggergator M) (mid : M) :
    Except OutOfBounds (HistoricalDataAggergator M) :=
  let writeIndex := if a.writeIndex > tickDataSize then 0 else a.writeIndex
  if h : writeIndex < tickDataSize then
    .ok { tickData := Function.update a.tickData ⟨writeIndex, h⟩ mid
          writeIndex := writeIndex + 1
          numOfElements := if a.numOfElements < tickDataSize then a.numOfElements + 1
                           else a.numOfElements }
  else .error ⟨writeIndex⟩

/-- The cell of an index, counted round the array. -/
def tick (a : HistoricalDataAggergator M) (i : ℕ) : M :=
  a.tickData ⟨i % tickDataSize, Nat.mod_lt i (by decide)⟩

/-- The body of the loop of `computeReturns`. -/
def returnAt (V : TickArithmetic M R) (a : HistoricalDataAggergator M) (i : ℕ) : Option R :=
  if V.positive (a.tick i) && V.nonzero (a.tick (i - 1)) then
    some (V.logRatio (a.tick i) (a.tick (i - 1)))
  else none

def computeReturns (V : TickArithmetic M R) (a : HistoricalDataAggergator M) : List R :=
  if a.numOfElements < 2 then []
  else (List.range' 1 (tickDataSize - 1)).filterMap (returnAt V a)

/-! ### The array after a number of insertions -/

/-- The calls of `insertTickData` on a new aggregator, whose array is not initialised. -/
def insertAll (initial : Fin tickDataSize → M) (mids : List M) :
    Except OutOfBounds (HistoricalDataAggergator M) :=
  mids.foldlM insertTickData { tickData := initial }

/-- The first cells hold the mid prices in order, and the others their old content. -/
def filled (initial : Fin tickDataSize → M) (mids : List M) : HistoricalDataAggergator M where
  tickData i := mids[i.val]?.getD (initial i)
  writeIndex := mids.length
  numOfElements := mids.length

section Insert

variable (initial : Fin tickDataSize → M)

theorem update_filled {mids : List M} (hlt : mids.length < tickDataSize) (mid : M) :
    Function.update (filled initial mids).tickData ⟨mids.length, hlt⟩ mid =
      (filled initial (mids ++ [mid])).tickData := by
  funext i
  by_cases hi : i = ⟨mids.length, hlt⟩
  · subst hi
    simp [filled]
  · have hne : i.val ≠ mids.length := fun h => hi (Fin.ext h)
    rw [Function.update_of_ne hi]
    rcases Nat.lt_or_gt_of_ne hne with hbefore | hafter
    · simp [filled, List.getElem?_append_left hbefore]
    · have hlast : (mids ++ [mid]).length ≤ i.val := by
        rw [List.length_append]
        exact hafter
      simp only [filled, List.getElem?_eq_none hafter.le, List.getElem?_eq_none hlast]

theorem insertTickData_filled {mids : List M} (hlt : mids.length < tickDataSize) (mid : M) :
    insertTickData (filled initial mids) mid = .ok (filled initial (mids ++ [mid])) := by
  have hindex : ¬ (filled initial mids).writeIndex > tickDataSize := Nat.not_lt.mpr hlt.le
  have hstored : (filled initial mids).writeIndex < tickDataSize := hlt
  have hcount : (filled initial mids).numOfElements < tickDataSize := hlt
  simp only [insertTickData, if_neg hindex, dif_pos hstored, if_pos hcount]
  have hdata := update_filled initial hlt mid
  rw [show (filled initial (mids ++ [mid])) = ⟨(filled initial (mids ++ [mid])).tickData,
    mids.length + 1, mids.length + 1⟩ by simp [filled], ← hdata]
  rfl

/-- The check on the index lets the insertion after the last cell through. -/
theorem insertTickData_full {mids : List M} (hfull : mids.length = tickDataSize) (mid : M) :
    insertTickData (filled initial mids) mid = .error ⟨tickDataSize⟩ := by
  have hindex : (filled initial mids).writeIndex = tickDataSize := hfull
  simp [insertTickData, hindex]

theorem insertAll_eq (mids : List M) :
    insertAll initial mids =
      if mids.length ≤ tickDataSize then .ok (filled initial mids)
      else .error ⟨tickDataSize⟩ := by
  induction mids using List.reverseRecOn with
  | nil => rfl
  | append_singleton mids mid ih =>
    have hsplit : insertAll initial (mids ++ [mid]) =
        insertAll initial mids >>= fun a => insertTickData a mid := by
      rw [insertAll, List.foldlM_append, insertAll]
      simp
    rw [hsplit, ih, List.length_append, List.length_singleton]
    rcases Nat.lt_trichotomy mids.length tickDataSize with hlt | heq | hgt
    · rw [if_pos hlt.le, if_pos (by omega)]
      exact insertTickData_filled initial hlt mid
    · rw [if_pos heq.le, if_neg (by omega)]
      exact insertTickData_full initial heq mid
    · rw [if_neg (by omega), if_neg (by omega)]
      rfl

end Insert

/-- Cell j, counted round the array, holds mid price j for each of the last 100. -/
def HoldsLast (a : HistoricalDataAggergator M) (mids : List M) : Prop :=
  ∀ j (hj : j < mids.length), mids.length ≤ j + tickDataSize → a.tick j = mids[j]

theorem tick_filled (initial : Fin tickDataSize → M) (mids : List M) {i : ℕ}
    (hi : i < tickDataSize) : (filled initial mids).tick i = mids[i]?.getD (initial ⟨i, hi⟩) := by
  simp only [tick, filled, Nat.mod_eq_of_lt hi]

theorem tick_filled_mid {initial : Fin tickDataSize → M} {mids : List M} {i : ℕ}
    (hle : mids.length ≤ tickDataSize) (hi : i < mids.length) :
    (filled initial mids).tick i = mids[i] := by
  rw [tick_filled initial mids (hi.trans_le hle), List.getElem?_eq_getElem hi, Option.getD_some]

/-- The insertions stay within the array, count the elements and keep the last 100 mid prices
exactly while there are no more than 100 of them. -/
theorem insertAll_window_iff (initial : Fin tickDataSize → M) (mids : List M) :
    (∃ a, insertAll initial mids = .ok a ∧ a.numOfElements = min mids.length tickDataSize ∧
        a.HoldsLast mids) ↔ mids.length ≤ tickDataSize := by
  rw [insertAll_eq]
  by_cases hle : mids.length ≤ tickDataSize
  · rw [if_pos hle]
    exact iff_of_true ⟨_, rfl, (Nat.min_eq_left hle).symm, fun _ hj _ => tick_filled_mid hle hj⟩ hle
  · rw [if_neg hle]
    refine iff_of_false ?_ hle
    rintro ⟨a, ha, -⟩
    cases ha

/-- The insertion of number 101 writes to cell 100. -/
theorem insertAll_leaves_array :
    insertAll (fun _ => 0) (List.replicate 101 1) = .error ⟨100⟩ := by
  rw [insertAll_eq, if_neg (by decide)]
  rfl

/-! ### Returns -/

section Returns

variable (V : TickArithmetic M R)

/-- One return for each two adjacent mid prices, the oldest first. -/
def returnsOf (mids : List M) : List R :=
  List.zipWith (fun previous mid => V.logRatio mid previous) mids mids.tail

/-- The insertions stay within the array and the returns are those of the last 100 mid prices. -/
def ReturnsCorrect (initial : Fin tickDataSize → M) (mids : List M) : Prop :=
  ∃ a, insertAll initial mids = .ok a ∧
    a.computeReturns V = returnsOf V (mids.drop (mids.length - tickDataSize))

/-- No cell behind the first k that was positive from the start gives a return: it is not the
first of them, and the one before it is zero. -/
def NoStaleReturn (initial : Fin tickDataSize → M) (k : ℕ) : Prop :=
  ∀ i : Fin tickDataSize, k ≤ i.val → V.positive (initial i) = true →
    k < i.val ∧ V.nonzero (initial ⟨i.val - 1, (Nat.sub_le _ _).trans_lt i.isLt⟩) = false

variable {V} {initial : Fin tickDataSize → M} {mids : List M}

theorem tick_filled_old {i : ℕ} (hi : i < tickDataSize) (hafter : mids.length ≤ i) :
    (filled initial mids).tick i = initial ⟨i, hi⟩ := by
  rw [tick_filled initial mids hi, List.getElem?_eq_none hafter, Option.getD_none]

/-- The cells of the mid prices give their returns. -/
theorem filterMap_returnAt (hpos : ∀ x ∈ mids, V.positive x = true)
    (hle : mids.length ≤ tickDataSize) :
    (List.range' 1 (mids.length - 1)).filterMap (returnAt V (filled initial mids)) =
      returnsOf V mids := by
  have hsome : ∀ i ∈ List.range' 1 (mids.length - 1), returnAt V (filled initial mids) i =
      some (V.logRatio ((filled initial mids).tick i) ((filled initial mids).tick (i - 1))) := by
    intro i hi
    have hrange := List.mem_range'_1.mp hi
    have hmid := hpos _ (List.getElem_mem (show i < mids.length by omega))
    have hprevious := V.nonzero_of_positive _
      (hpos _ (List.getElem_mem (show i - 1 < mids.length by omega)))
    rw [← tick_filled_mid hle] at hmid hprevious
    rw [returnAt, hmid, hprevious]
    rfl
  rw [List.filterMap_congr hsome, ← Function.comp_def some, List.filterMap_eq_map, returnsOf]
  refine List.ext_getElem (by simp) (fun j hj _ => ?_)
  have hlast : 1 + j < mids.length := by
    simp only [List.length_map, List.length_range'] at hj
    omega
  simp only [List.getElem_map, List.getElem_range'_1, List.getElem_zipWith, List.getElem_tail,
    Nat.add_sub_cancel_left]
  rw [tick_filled_mid hle hlast, tick_filled_mid hle (by omega)]
  simp only [Nat.add_comm]

/-- The other cells give none exactly if their old content gives none. -/
theorem filterMap_stale_iff (hne : mids ≠ []) (hpos : ∀ x ∈ mids, V.positive x = true)
    (hle : mids.length ≤ tickDataSize) :
    (List.range' mids.length (tickDataSize - mids.length)).filterMap
        (returnAt V (filled initial mids)) = [] ↔ NoStaleReturn V initial mids.length := by
  have hlength := List.length_pos_of_ne_nil hne
  have hnone : ∀ i, returnAt V (filled initial mids) i = none ↔
      (V.positive ((filled initial mids).tick i) = true →
        V.nonzero ((filled initial mids).tick (i - 1)) = false) := by
    intro i
    rw [returnAt]
    cases V.positive ((filled initial mids).tick i) <;>
      cases V.nonzero ((filled initial mids).tick (i - 1)) <;> simp
  simp only [List.filterMap_eq_nil_iff, List.mem_range'_1, hnone]
  constructor
  · intro h i hi hpositive
    have hstale := h i.val ⟨hi, by omega⟩
    rw [tick_filled_old i.isLt hi] at hstale
    rcases Nat.lt_or_eq_of_le hi with hlt | heq
    · rw [tick_filled_old (by omega) (Nat.le_sub_one_of_lt hlt)] at hstale
      exact ⟨hlt, hstale hpositive⟩
    · -- the cell before is that of the last mid price, which is positive
      have hlast := V.nonzero_of_positive _
        (hpos _ (List.getElem_mem (show i.val - 1 < mids.length by omega)))
      rw [tick_filled_mid hle (show i.val - 1 < mids.length by omega), hlast] at hstale
      exact absurd (hstale hpositive).symm Bool.false_ne_true
  · rintro h i ⟨hi, hlt⟩ hpositive
    have hi' : i < tickDataSize := by omega
    rw [tick_filled_old hi' hi] at hpositive
    obtain ⟨hafter, hzero⟩ := h ⟨i, hi'⟩ hi hpositive
    rw [tick_filled_old _ (Nat.le_sub_one_of_lt hafter)]
    exact hzero

theorem returnsCorrect_iff (hk : 2 ≤ mids.length) (hpos : ∀ x ∈ mids, V.positive x = true) :
    ReturnsCorrect V initial mids ↔
      mids.length ≤ tickDataSize ∧ NoStaleReturn V initial mids.length := by
  rw [ReturnsCorrect, insertAll_eq]
  by_cases hle : mids.length ≤ tickDataSize
  · have hrange : List.range' 1 (tickDataSize - 1) = List.range' 1 (mids.length - 1) ++
        List.range' mids.length (tickDataSize - mids.length) := by
      have happend := List.range'_append_1 (s := 1) (m := mids.length - 1)
        (n := tickDataSize - mids.length)
      rw [Nat.add_sub_cancel' (by omega)] at happend
      rw [happend]
      congr 1
      omega
    have hreturns : (filled initial mids).computeReturns V = returnsOf V mids ++
        (List.range' mids.length (tickDataSize - mids.length)).filterMap
          (returnAt V (filled initial mids)) := by
      have hcount : ¬ (filled initial mids).numOfElements < 2 := Nat.not_lt.mpr hk
      rw [computeReturns, if_neg hcount, ← filterMap_returnAt hpos hle, ← List.filterMap_append,
        ← hrange]
    have hne : mids ≠ [] := List.ne_nil_of_length_pos (by omega)
    rw [if_pos hle, and_iff_right hle, ← filterMap_stale_iff hne hpos hle,
      Nat.sub_eq_zero_of_le hle, List.drop_zero]
    constructor
    · rintro ⟨a, ha, hcorrect⟩
      cases ha
      rw [hreturns] at hcorrect
      exact List.append_right_eq_self.mp hcorrect
    · intro hnone
      exact ⟨_, rfl, by rw [hreturns, hnone, List.append_nil]⟩
  · rw [if_neg hle]
    refine iff_of_false ?_ (fun h => hle h.1)
    rintro ⟨a, ha, -⟩
    cases ha

end Returns

/-- The returns of two or more positive mid prices are correct for every initial content of the
array exactly if there are 100 of them; for a given content the condition is that no more than
100 are inserted and the cells that they leave give no return. -/
theorem computeReturns_iff (V : TickArithmetic M R) {mids : List M} (hk : 2 ≤ mids.length)
    (hpos : ∀ x ∈ mids, V.positive x = true) :
    (∀ initial, ReturnsCorrect V initial mids ↔
        mids.length ≤ tickDataSize ∧ NoStaleReturn V initial mids.length) ∧
      ((∀ initial, ReturnsCorrect V initial mids) ↔ mids.length = tickDataSize) := by
  refine ⟨fun initial => returnsCorrect_iff hk hpos, ?_, ?_⟩
  · intro hall
    -- an array full of one positive price shows every missing insertion
    have hfirst := hpos _ (List.getElem_mem (show 0 < mids.length by omega))
    obtain ⟨hle, hstale⟩ := (returnsCorrect_iff hk hpos).mp (hall (fun _ => mids[0]))
    by_contra hne
    have hlt : mids.length < tickDataSize := Nat.lt_of_le_of_ne hle hne
    exact Nat.lt_irrefl _ (hstale ⟨mids.length, hlt⟩ le_rfl hfirst).1
  · intro heq initial
    refine (returnsCorrect_iff hk hpos).mpr ⟨heq.le, fun i hi _ => ?_⟩
    have := i.isLt
    omega

/-- Whole numbers as mid prices; the return of a pair is the pair. -/
def wholeTicks : TickArithmetic ℤ (ℤ × ℤ) where
  positive x := 0 < x
  nonzero x := x ≠ 0
  nonzero_of_positive _ hx := decide_eq_true (of_decide_eq_true hx).ne'
  logRatio mid previous := (mid, previous)

theorem computeReturns_iff_hundred :
    ReturnsCorrect wholeTicks (fun _ => 7) (List.replicate 100 3) :=
  ((computeReturns_iff wholeTicks (by decide) (by decide)).2.mpr (by decide)) _

/-- Two insertions give their one return on an array of zeros, and 98 more on another one. -/
theorem computeReturns_depends_on_initial :
    ReturnsCorrect wholeTicks (fun _ => 0) [1, 2] ∧
      ¬ ReturnsCorrect wholeTicks (fun _ => 5) [1, 2] := by
  rw [returnsCorrect_iff (by decide) (by decide), returnsCorrect_iff (by decide) (by decide)]
  refine ⟨⟨by decide, fun _ _ hpositive => absurd hpositive Bool.false_ne_true⟩, fun h => ?_⟩
  exact Nat.lt_irrefl _ (h.2 ⟨2, by decide⟩ le_rfl rfl).1

/-! ### Stored ticks -/

/-- The values of the row that `writeToDB` inserts; the time is kept as the seconds that
are formatted. -/
structure TickRow where
  tsSeconds : Int64
  side : String
  price : String
  quantity : String
deriving DecidableEq

/-- The row that is inserted for an update, if the database is connected. -/
def writeToDB (connected : Bool) (u : MarketUpdate) : Option TickRow :=
  if connected then
    some { tsSeconds := u.timestamp / 1000
           side := if u.side = .buy then "BUY" else "SELL"
           price := toString u.price
           quantity := toString u.quantity }
  else none

end HistoricalDataAggergator

namespace TimestampUnit

/-- The ticks of a raw event time in a second. -/
def perSecond : TimestampUnit → ℤ
  | .microseconds => 10 ^ 6
  | .milliseconds => 10 ^ 3
  | .nanoseconds => 10 ^ 9

def perMillisecond : TimestampUnit → ℤ
  | .microseconds => 10 ^ 3
  | .milliseconds => 1
  | .nanoseconds => 10 ^ 6

/-- A raw event time in whole microseconds. -/
def toMicroseconds (raw : ℤ) : TimestampUnit → ℤ
  | .microseconds => raw
  | .milliseconds => raw * 1000
  | .nanoseconds => raw / 1000

end TimestampUnit

namespace SbeDecoder

open TwosComplement

/-- Every update of a message carries the event time of the message. -/
theorem decode_timestamp {msg : List UInt8} {schema : MessageSchema} {registry : VenueRegistry}
    {venueName : List UInt8} {recvTsc : UInt64} {u : MarketUpdate}
    (hu : u ∈ (decode msg schema registry venueName recvTsc).2) :
    u.timestamp = eventTimeUs (readScaled msg (8 + schema.eventTimeOffset) .int64)
      schema.eventTimeUnit := by
  have hpos : 0 < (decode msg schema registry venueName recvTsc).1 := by
    have hspec := decode_spec msg schema registry venueName recvTsc
    generalize decode msg schema registry venueName recvTsc = result at hspec hu
    cases hspec with
    | short _ => cases hu
    | unknown _ _ => cases hu
    | decoded _ _ _ _ => exact Nat.add_pos_left (Nat.succ_pos _) _
  obtain ⟨id, hdecode⟩ := decode_consumed hpos
  rw [hdecode] at hu
  obtain ⟨block, -, rfl⟩ := List.mem_map.mp hu
  rfl

theorem toInt_eventTimeUs {raw : Int64} (hnonneg : 0 ≤ raw.toInt) {unit : TimestampUnit}
    (hfits : Fits 64 (unit.toMicroseconds raw.toInt)) :
    (eventTimeUs raw unit).toInt = unit.toMicroseconds raw.toInt := by
  cases unit with
  | microseconds => rfl
  | milliseconds =>
    rw [eventTimeUs, Int64.toInt_mul]
    exact truncate_of_fits (by decide) hfits
  | nanoseconds =>
    rw [eventTimeUs, Int64.toInt_div_of_ne_right _ _ (by decide)]
    exact Int.tdiv_eq_ediv_of_nonneg hnonneg

end SbeDecoder

namespace HistoricalDataAggergator

open SbeDecoder TwosComplement

/-- The stored seconds are those of the event exactly for events in the first millisecond of
the epoch: the time in microseconds is divided by 1000. -/
theorem writeToDB_seconds_iff {msg : List UInt8} {schema : MessageSchema}
    {registry : VenueRegistry} {venueName : List UInt8} {recvTsc : UInt64} {u : MarketUpdate}
    (hu : u ∈ (decode msg schema registry venueName recvTsc).2) {raw : ℤ}
    (hraw : (readScaled msg (8 + schema.eventTimeOffset) .int64).toInt = raw) (hnonneg : 0 ≤ raw)
    (hfits : Fits 64 (schema.eventTimeUnit.toMicroseconds raw)) :
    (writeToDB true u).map (fun row => row.tsSeconds.toInt) =
        some (raw / schema.eventTimeUnit.perSecond) ↔
      raw < schema.eventTimeUnit.perMillisecond := by
  subst hraw
  have hseconds : (u.timestamp / 1000).toInt = u.timestamp.toInt.tdiv 1000 :=
    Int64.toInt_div_of_ne_right _ _ (by decide)
  rw [decode_timestamp hu, toInt_eventTimeUs hnonneg hfits] at hseconds
  rw [writeToDB, if_pos rfl, Option.map_some, Option.some_inj, decode_timestamp hu, hseconds]
  generalize (readScaled msg (8 + schema.eventTimeOffset) .int64).toInt = raw at hnonneg
  cases schema.eventTimeUnit with
  | microseconds =>
    rw [TimestampUnit.toMicroseconds, Int.tdiv_eq_ediv_of_nonneg hnonneg]
    simp only [TimestampUnit.perSecond, TimestampUnit.perMillisecond]
    omega
  | milliseconds =>
    rw [TimestampUnit.toMicroseconds, Int.mul_tdiv_cancel _ (by decide)]
    simp only [TimestampUnit.perSecond, TimestampUnit.perMillisecond]
    omega
  | nanoseconds =>
    rw [TimestampUnit.toMicroseconds, Int.tdiv_eq_ediv_of_nonneg (by omega)]
    simp only [TimestampUnit.perSecond, TimestampUnit.perMillisecond]
    omega

/-- The sample message with an event time of 999 microseconds. -/
def earlyDepth : SbeWire.DepthMessage := { SbeWire.sampleDepth with eventTime := 999 }

theorem writeToDB_seconds_iff_early :
    (writeToDB true (earlyDepth.update 0 0 .buy 100 7)).map (fun row => row.tsSeconds.toInt) =
      some 0 := by
  have hu : earlyDepth.update 0 0 .buy 100 7 ∈ (decode earlyDepth.encode kBinanceDepthDiff
      (.ofRows [⟨[66], [66, 84, 67]⟩]) [66] 0).2 := by decide +kernel
  have hraw : (readScaled earlyDepth.encode (8 + kBinanceDepthDiff.eventTimeOffset)
      .int64).toInt = 999 := by decide +kernel
  exact (writeToDB_seconds_iff hu hraw (by decide) (by decide)).mpr (by decide)

/-- An event of November 2023 is stored with its milliseconds as seconds. -/
theorem writeToDB_stores_milliseconds :
    let u := SbeWire.sampleDepth.update 0 0 .buy 100 7
    let result := decode SbeWire.sampleDepth.encode kBinanceDepthDiff
      (.ofRows [⟨[66], [66, 84, 67]⟩]) [66] 0
    u ∈ result.2 ∧ u.timestamp.toInt = 1700000000000000 ∧
      (writeToDB true u).map (fun row => row.tsSeconds.toInt) = some 1700000000000 ∧
      (1700000000000000 : ℤ) / TimestampUnit.microseconds.perSecond = 1700000000 := by
  decide +kernel

end HistoricalDataAggergator

end HftSystem
