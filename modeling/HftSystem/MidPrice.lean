import HftSystem.BookRefinement
import HftSystem.MachineArithmetic
import HftSystem.UpdateLaws
import Mathlib.Algebra.Order.BigOperators.Group.Finset

/-!
The mid price in every reachable book. Each of the two walks of `getMidRaw` meets
every slot once, wherever its best slot is, and counts the first five active ones.
With positive quantities whose sum stays below 2^63 nothing overflows, and the
result is an average of the counted prices.
-/
namespace HftSystem.OrderBook

open TwosComplement CircularWindow MachineArithmetic Tracing

/-! ### The computation in exact integers -/

/-- What a walk has counted: the slots in order, and the sums over them. -/
structure Walk where
  slots : List (Fin lobDepth) := []
  sum : ℤ := 0
  vol : ℤ := 0

/-- The loop of `getMidRaw`, with the result of every operation. -/
def midWalk (levels : Fin lobDepth → PriceLevel) (next : Fin lobDepth → Fin lobDepth) :
    (steps : ℕ) → (idx : Fin lobDepth) → (found : ℕ) → Walk → Exact Walk
  | 0, _, _, w => return w
  | steps + 1, idx, found, w =>
    if found < midPriceN then
      if (levels idx).isActive then do
        let product ← op 128 ((levels idx).price * (levels idx).quantity)
        let sum ← op 128 (w.sum + product)
        let vol ← op 64 (w.vol + (levels idx).quantity)
        midWalk levels next steps (next idx) (found + 1) ⟨w.slots ++ [idx], sum, vol⟩
      else midWalk levels next steps (next idx) found w
    else return w

def bidWalk (b : OrderBook) : Exact Walk :=
  midWalk b.bids (fun idx => slotBefore idx 1) lobDepth b.bestBidIndex 0 {}

def askWalk (b : OrderBook) : Exact Walk :=
  midWalk b.asks (fun idx => slotAfter idx 1) lobDepth b.bestAskIndex 0 {}

def getMidExact (b : OrderBook) : Exact ℤ := do
  let bids ← b.bidWalk
  let asks ← b.askWalk
  let totalVol ← op 64 (bids.vol + asks.vol)
  if totalVol = 0 then return 0
  let total ← op 128 (bids.sum + asks.sum)
  let quotient ← op 128 (total.tdiv totalVol)
  op 64 quotient

/-! ### What a walk counts -/

section Walks

variable (levels : Fin lobDepth → PriceLevel) (next : Fin lobDepth → Fin lobDepth)

/-- The first `left` active slots among the given ones. -/
def counted (slots : List (Fin lobDepth)) (left : ℕ) : List (Fin lobDepth) :=
  (slots.filter (fun i => (levels i).isActive)).take left

def notionalOf (slots : List (Fin lobDepth)) : ℤ := (slots.map (fun i => notional (levels i))).sum

def volumeOf (slots : List (Fin lobDepth)) : ℤ := (slots.map (fun i => (levels i).quantity)).sum

@[simp] theorem notionalOf_nil : notionalOf levels [] = 0 := rfl

@[simp] theorem volumeOf_nil : volumeOf levels [] = 0 := rfl

@[simp] theorem notionalOf_cons (i : Fin lobDepth) (slots : List (Fin lobDepth)) :
    notionalOf levels (i :: slots) = notional (levels i) + notionalOf levels slots := by
  simp [notionalOf]

@[simp] theorem volumeOf_cons (i : Fin lobDepth) (slots : List (Fin lobDepth)) :
    volumeOf levels (i :: slots) = (levels i).quantity + volumeOf levels slots := by
  simp [volumeOf]

theorem counted_cons_active {i : Fin lobDepth} (hactive : (levels i).isActive = true)
    (slots : List (Fin lobDepth)) (left : ℕ) :
    counted levels (i :: slots) (left + 1) = i :: counted levels slots left := by
  simp [counted, hactive]

theorem counted_cons_inactive {i : Fin lobDepth} (hactive : ¬ (levels i).isActive = true)
    (slots : List (Fin lobDepth)) (left : ℕ) :
    counted levels (i :: slots) left = counted levels slots left := by
  simp [counted, hactive]

theorem value_midWalk (steps : ℕ) (idx : Fin lobDepth) (found : ℕ) (w : Walk) :
    let S := counted levels (List.iterate next idx steps) (midPriceN - found)
    (midWalk levels next steps idx found w).value =
      ⟨w.slots ++ S, w.sum + notionalOf levels S, w.vol + volumeOf levels S⟩ := by
  induction steps generalizing idx found w with
  | zero => simp [midWalk, counted]
  | succ steps ih =>
    rw [midWalk, List.iterate]
    by_cases hfound : found < midPriceN
    · rw [if_pos hfound]
      by_cases hactive : (levels idx).isActive = true
      · have hleft : midPriceN - found = midPriceN - (found + 1) + 1 := by omega
        rw [if_pos hactive, hleft, counted_cons_active levels hactive]
        simp only [Traced.value_bind, value_op, ih, notionalOf_cons, volumeOf_cons, notional]
        simp [add_assoc]
      · rw [if_neg hactive, ih, counted_cons_inactive levels hactive]
    · have hleft : midPriceN - found = 0 := by omega
      rw [if_neg hfound, hleft]
      simp [counted]

/-- The sums over every first part of the slots fit their types. -/
def SumsFit (slots : List (Fin lobDepth)) : Prop :=
  ∀ k, Fits 128 (notionalOf levels (slots.take k)) ∧ Fits 64 (volumeOf levels (slots.take k))

theorem noOverflow_midWalk_iff (hproduct : ∀ i, Fits 128 (notional (levels i))) (steps : ℕ)
    (idx : Fin lobDepth) (found : ℕ) {w : Walk} (hw : Fits 128 w.sum ∧ Fits 64 w.vol) :
    NoOverflow (midWalk levels next steps idx found w) ↔
      ∀ k, Fits 128 (w.sum + notionalOf levels
          ((counted levels (List.iterate next idx steps) (midPriceN - found)).take k)) ∧
        Fits 64 (w.vol + volumeOf levels
          ((counted levels (List.iterate next idx steps) (midPriceN - found)).take k)) := by
  induction steps generalizing idx found w with
  | zero =>
    refine iff_of_true (noOverflow_pure _) ?_
    simpa [counted] using fun _ : ℕ => hw
  | succ steps ih =>
    rw [midWalk, List.iterate]
    by_cases hfound : found < midPriceN
    · rw [if_pos hfound]
      by_cases hactive : (levels idx).isActive = true
      · have hleft : midPriceN - found = midPriceN - (found + 1) + 1 := by omega
        rw [if_pos hactive, hleft, counted_cons_active levels hactive]
        simp only [noOverflow_bind, noOverflow_op, value_op]
        constructor
        · rintro ⟨-, hsum, hvol, hrest⟩ k
          rw [ih _ _ ⟨hsum, hvol⟩] at hrest
          cases k with
          | zero => simpa using hw
          | succ k =>
            rw [List.take_succ_cons, notionalOf_cons, volumeOf_cons, ← add_assoc, ← add_assoc]
            exact hrest k
        · intro h
          obtain ⟨hsum, hvol⟩ := h 1
          simp only [List.take_succ_cons, List.take_zero, notionalOf_cons, volumeOf_cons,
            notionalOf_nil, volumeOf_nil, add_zero] at hsum hvol
          refine ⟨hproduct idx, hsum, hvol, (ih _ _ ⟨hsum, hvol⟩).mpr (fun k => ?_)⟩
          have hk := h (k + 1)
          rw [List.take_succ_cons, notionalOf_cons, volumeOf_cons, ← add_assoc, ← add_assoc] at hk
          exact hk
      · rw [if_neg hactive, ih _ _ hw, counted_cons_inactive levels hactive]
    · have hleft : midPriceN - found = 0 := by omega
      rw [if_neg hfound, hleft]
      refine iff_of_true (noOverflow_pure _) ?_
      simpa [counted] using fun _ : ℕ => hw

end Walks

/-! ### The two walks -/

section Book

variable (b : OrderBook)

def bidTour : List (Fin lobDepth) :=
  List.iterate (fun idx => slotBefore idx 1) b.bestBidIndex lobDepth

def askTour : List (Fin lobDepth) :=
  List.iterate (fun idx => slotAfter idx 1) b.bestAskIndex lobDepth

/-- The slots that the walk over the bids counts. -/
def bidSlots : List (Fin lobDepth) := counted b.bids b.bidTour midPriceN

def askSlots : List (Fin lobDepth) := counted b.asks b.askTour midPriceN

theorem value_bidWalk :
    b.bidWalk.value = ⟨b.bidSlots, notionalOf b.bids b.bidSlots, volumeOf b.bids b.bidSlots⟩ := by
  rw [bidWalk, value_midWalk, List.nil_append, zero_add, zero_add]
  rfl

theorem value_askWalk :
    b.askWalk.value = ⟨b.askSlots, notionalOf b.asks b.askSlots, volumeOf b.asks b.askSlots⟩ := by
  rw [askWalk, value_midWalk, List.nil_append, zero_add, zero_add]
  rfl

theorem bidTour_complete : b.bidTour.Nodup ∧ ∀ i, i ∈ b.bidTour := by
  rw [bidTour, tour_bids 0]
  refine ⟨(Window.Represents.nodup_tour _).map Fin.rev_injective, fun i => ?_⟩
  exact List.mem_map.mpr ⟨i.rev, Window.Represents.mem_tour _ _, Fin.rev_rev i⟩

theorem askTour_complete : b.askTour.Nodup ∧ ∀ i, i ∈ b.askTour := by
  rw [askTour, tour_asks]
  exact ⟨Window.Represents.nodup_tour _, Window.Represents.mem_tour _⟩

/-- What a complete walk round the ring counts. -/
structure CountsLevels (levels : Fin lobDepth → PriceLevel) (slots : List (Fin lobDepth)) :
    Prop where
  nodup : slots.Nodup
  active : ∀ i ∈ slots, (levels i).isActive = true
  length : slots.length = min midPriceN (activeLevels levels)

theorem countsLevels_counted {levels : Fin lobDepth → PriceLevel} {tour : List (Fin lobDepth)}
    (h : tour.Nodup ∧ ∀ i, i ∈ tour) : CountsLevels levels (counted levels tour midPriceN) where
  nodup := (h.1.filter _).sublist (List.take_sublist _ _)
  active i hi := (List.mem_filter.mp (List.mem_of_mem_take hi)).2
  length := by
    have hset : (tour.filter (fun i => (levels i).isActive)).toFinset =
        Finset.univ.filter (fun i => (levels i).isActive = true) := by
      ext i
      simp [h.2 i]
    rw [counted, List.length_take, ← List.toFinset_card_of_nodup (h.1.filter _), hset]
    rfl

theorem bidSlots_counts : CountsLevels b.bids b.bidSlots := countsLevels_counted b.bidTour_complete

theorem askSlots_counts : CountsLevels b.asks b.askSlots := countsLevels_counted b.askTour_complete

/-! ### The machine computation -/

/-- The result of `getMidRaw` with the truncations of the sums taken once at the end. -/
theorem getMidRaw_eq_truncate :
    b.getMidRaw =
      if truncate 64 (volumeOf b.bids b.bidSlots + volumeOf b.asks b.askSlots) = 0 then 0
      else truncate 64 ((truncate 128 (notionalOf b.bids b.bidSlots +
        notionalOf b.asks b.askSlots)).tdiv
          (truncate 64 (volumeOf b.bids b.bidSlots + volumeOf b.asks b.askSlots))) := by
  have hzero : ∀ w, truncate w 0 = 0 := fun _ => Int.zero_bmod
  have hadd : ∀ w x y, truncate w (truncate w x + truncate w y) = truncate w (x + y) := by
    intro w x y
    rw [truncate_add_truncate, add_comm, truncate_add_truncate, add_comm]
  have hbids := midLoop_eq b.bids (fun idx => slotBefore idx 1) lobDepth b.bestBidIndex 0 0 0
  have hasks := midLoop_eq b.asks (fun idx => slotAfter idx 1) lobDepth b.bestAskIndex 0 0 0
  simp only [walked, ← List.map_take, List.map_map, hzero, zero_add, Nat.sub_zero] at hbids hasks
  change _ = (truncate 128 (notionalOf b.bids b.bidSlots),
    truncate 64 (volumeOf b.bids b.bidSlots)) at hbids
  change _ = (truncate 128 (notionalOf b.asks b.askSlots),
    truncate 64 (volumeOf b.asks b.askSlots)) at hasks
  unfold getMidRaw
  rw [hbids, hasks]
  simp only [hadd]

/-- The bounds on the levels under which nothing in `getMidRaw` overflows. -/
structure MidFits : Prop where
  bids : SumsFit b.bids b.bidSlots
  asks : SumsFit b.asks b.askSlots
  volume : Fits 64 (volumeOf b.bids b.bidSlots + volumeOf b.asks b.askSlots)
  total : volumeOf b.bids b.bidSlots + volumeOf b.asks b.askSlots ≠ 0 →
    Fits 128 (notionalOf b.bids b.bidSlots + notionalOf b.asks b.askSlots)
  result : volumeOf b.bids b.bidSlots + volumeOf b.asks b.askSlots ≠ 0 →
    Fits 64 ((notionalOf b.bids b.bidSlots + notionalOf b.asks b.askSlots).tdiv
      (volumeOf b.bids b.bidSlots + volumeOf b.asks b.askSlots))

/-- The volume-weighted mean of the counted prices, in exact integers. -/
def weightedMid : ℤ :=
  (notionalOf b.bids b.bidSlots + notionalOf b.asks b.askSlots).tdiv
    (volumeOf b.bids b.bidSlots + volumeOf b.asks b.askSlots)

theorem value_getMidExact : b.getMidExact.value = b.weightedMid := by
  unfold weightedMid
  simp only [getMidExact, Traced.value_bind, Traced.value_ite]
  rw [value_op, value_bidWalk, value_askWalk]
  split
  · rename_i hzero
    rw [show volumeOf b.bids b.bidSlots + volumeOf b.asks b.askSlots = 0 from hzero, Int.tdiv_zero,
      Traced.value_pure]
  · rfl

theorem getMidRaw_of_fits {b : OrderBook} (h : b.MidFits) : b.getMidRaw = b.weightedMid := by
  rw [getMidRaw_eq_truncate, weightedMid, truncate_of_fits (by decide) h.volume]
  split
  · rename_i hzero
    rw [hzero, Int.tdiv_zero]
  · rename_i hne
    rw [truncate_of_fits (by decide) (h.total hne), truncate_of_fits (by decide) (h.result hne)]

/-- A level as the book can hold it. -/
structure Machine (l : PriceLevel) : Prop where
  price : Fits 64 l.price
  quantity : Fits 64 l.quantity

theorem Machine.product {l : PriceLevel} (h : Machine l) : Fits 128 (notional l) :=
  fits_mul h.price h.quantity

theorem noOverflow_getMidExact_iff (hbids : ∀ i, Machine (b.bids i))
    (hasks : ∀ i, Machine (b.asks i)) : NoOverflow b.getMidExact ↔ b.MidFits := by
  have hzero : Fits 128 (0 : ℤ) ∧ Fits 64 (0 : ℤ) := by decide
  have hbidWalk : NoOverflow b.bidWalk ↔ SumsFit b.bids b.bidSlots := by
    rw [bidWalk, noOverflow_midWalk_iff _ _ (fun i => (hbids i).product) _ _ _ hzero]
    simp only [zero_add]
    rfl
  have haskWalk : NoOverflow b.askWalk ↔ SumsFit b.asks b.askSlots := by
    rw [askWalk, noOverflow_midWalk_iff _ _ (fun i => (hasks i).product) _ _ _ hzero]
    simp only [zero_add]
    rfl
  -- the branch is split first, while its condition still has the operation in it
  simp only [getMidExact, noOverflow_bind, noOverflow_ite]
  simp only [noOverflow_op, value_op, noOverflow_pure, hbidWalk, haskWalk, value_bidWalk,
    value_askWalk]
  constructor
  · rintro ⟨hbids, hasks, hvolume, -, hrest⟩
    exact ⟨hbids, hasks, hvolume, fun hne => (hrest hne).1, fun hne => (hrest hne).2.2⟩
  · intro h
    refine ⟨h.bids, h.asks, h.volume, fun _ => trivial, fun hne => ⟨h.total hne, ?_, h.result hne⟩⟩
    obtain ⟨hlow, hhigh⟩ := h.result hne
    exact ⟨le_trans (by decide) hlow, lt_trans hhigh (by decide)⟩

end Book

/-! ### Stored levels are machine values -/

theorem fits_toInt (x : Int64) : Fits 64 x.toInt := ⟨x.le_toInt, x.toInt_lt⟩

theorem addUpdate_machine (b : OrderBook) (u : MarketUpdate)
    (h : ∀ s i, Machine ((b.side s).levels i)) (s : Side) (i : Fin lobDepth) :
    Machine (((b.addUpdate u).side s).levels i) := by
  have hnew : Machine ⟨u.price.toInt, u.quantity.toInt, true⟩ :=
    ⟨fits_toInt _, fits_toInt _⟩
  have hstore : ∀ j best worst count, Machine ((((b.side u.side).store j u.price.toInt
      u.quantity.toInt best worst count)).levels i) := by
    intro j best worst count
    by_cases hij : i = j
    · rw [hij, BookSide.levels_store_self]
      exact hnew
    · rw [BookSide.levels_store_of_ne _ _ _ _ _ _ _ hij]
      exact h _ i
  by_cases hs : s = .sell ↔ u.side = .sell
  · rw [side_congr _ hs]
    have hedit := addUpdate_edit b u
    generalize (b.addUpdate u).side u.side = S at hedit
    cases hedit with
    | first _ _ => exact hstore _ _ _ _
    | dropped _ _ _ => exact h _ i
    | stored _ _ _ _ _ => exact hstore _ _ _ _
    | absent _ _ => exact h _ i
    | removed _ _ _ _ =>
      by_cases hij : i = b.slotOf u.side u.price.toInt
      · rw [hij, BookSide.levels_clear_self]
        exact ⟨(h _ _).price, show Fits 64 0 by decide⟩
      · rw [BookSide.levels_clear_of_ne _ _ _ _ hij]
        exact h _ i
  · rw [addUpdate_otherSide b u hs]
    exact h s i

theorem Reachable.machine {b : OrderBook} (hreach : b.Reachable) :
    (∀ i, Machine (b.bids i)) ∧ ∀ i, Machine (b.asks i) := by
  obtain ⟨us, rfl⟩ := hreach
  have hfresh : ∀ s i, Machine ((({} : OrderBook).side s).levels i) := by
    intro s i
    have hzero : Fits 64 0 := by decide
    unfold side
    split
    · exact ⟨hzero, hzero⟩
    · exact ⟨hzero, hzero⟩
  have h := Transitions.foldl_preserves
    (P := fun b : OrderBook => ∀ s i, Machine ((b.side s).levels i)) addUpdate_machine hfresh us
  exact ⟨fun i => h .buy i, fun i => h .sell i⟩

/-! ### The average of the counted prices -/

/-- The sum of all active quantities of a side. -/
def activeVolume (levels : Fin lobDepth → PriceLevel) : ℤ :=
  ∑ i with (levels i).isActive = true, (levels i).quantity

def PositiveQuantities (levels : Fin lobDepth → PriceLevel) : Prop :=
  ∀ i, (levels i).isActive = true → 0 < (levels i).quantity

section Average

variable {levels : Fin lobDepth → PriceLevel} {slots : List (Fin lobDepth)}

theorem activeVolume_nonneg (hpos : PositiveQuantities levels) : 0 ≤ activeVolume levels :=
  Finset.sum_nonneg (fun i hi => (hpos i (Finset.mem_filter.mp hi).2).le)

/-- The sum of price times quantity lies between the multiples of the volume. -/
theorem notionalOf_bounds (hactive : ∀ i ∈ slots, (levels i).isActive = true)
    (hpos : PositiveQuantities levels) {lo hi : ℤ}
    (hprice : ∀ i ∈ slots, lo ≤ (levels i).price ∧ (levels i).price ≤ hi) :
    lo * volumeOf levels slots ≤ notionalOf levels slots ∧
      notionalOf levels slots ≤ hi * volumeOf levels slots :=
  weighted_sum_bounds (fun i hi => (hpos i (hactive i hi)).le) hprice

theorem volumeOf_pos (hactive : ∀ i ∈ slots, (levels i).isActive = true)
    (hpos : PositiveQuantities levels) (hne : slots ≠ []) : 0 < volumeOf levels slots := by
  have hterms : ∀ q ∈ slots.map (fun i => (levels i).quantity), 0 < q := by
    intro q hq
    obtain ⟨i, hi, rfl⟩ := List.mem_map.mp hq
    exact hpos i (hactive i hi)
  exact List.sum_pos _ hterms (by simpa using hne)

theorem volumeOf_nonneg (hactive : ∀ i ∈ slots, (levels i).isActive = true)
    (hpos : PositiveQuantities levels) : 0 ≤ volumeOf levels slots := by
  by_cases hne : slots = []
  · rw [hne, volumeOf_nil]
  · exact (volumeOf_pos hactive hpos hne).le

theorem volumeOf_le_activeVolume (hnodup : slots.Nodup)
    (hactive : ∀ i ∈ slots, (levels i).isActive = true) (hpos : PositiveQuantities levels) :
    volumeOf levels slots ≤ activeVolume levels := by
  rw [volumeOf, ← List.sum_toFinset _ hnodup]
  refine Finset.sum_le_sum_of_subset_of_nonneg ?_ ?_
  · intro i hi
    exact Finset.mem_filter.mpr ⟨Finset.mem_univ i, hactive i (List.mem_toFinset.mp hi)⟩
  · intro i hi _
    exact (hpos i (Finset.mem_filter.mp hi).2).le

theorem fits_notionalOf (hmachine : ∀ i, Machine (levels i))
    (hactive : ∀ i ∈ slots, (levels i).isActive = true) (hpos : PositiveQuantities levels)
    (hvol : volumeOf levels slots < 2 ^ 63) : Fits 127 (notionalOf levels slots) := by
  obtain ⟨hlow, hhigh⟩ := notionalOf_bounds hactive hpos
    (fun i _ => ⟨(hmachine i).price.1, (hmachine i).price.2.le⟩)
  have hnonneg := volumeOf_nonneg hactive hpos
  norm_num at hlow hhigh
  unfold Fits
  norm_num
  omega

theorem sumsFit (h : CountsLevels levels slots) (hmachine : ∀ i, Machine (levels i))
    (hpos : PositiveQuantities levels) (hvol : activeVolume levels < 2 ^ 63) :
    SumsFit levels slots := by
  intro k
  have hactive : ∀ i ∈ slots.take k, (levels i).isActive = true :=
    fun i hi => h.active i (List.mem_of_mem_take hi)
  have hle := volumeOf_le_activeVolume (h.nodup.sublist (List.take_sublist k slots)) hactive hpos
  obtain ⟨hlow, hhigh⟩ := fits_notionalOf hmachine hactive hpos (hle.trans_lt hvol)
  refine ⟨⟨le_trans (by decide) hlow, lt_trans hhigh (by decide)⟩, ?_, hle.trans_lt hvol⟩
  exact le_trans (by decide) (volumeOf_nonneg hactive hpos)

end Average

/-- A book in which every active quantity is positive and their sum is below 2^63. -/
structure Weighted (b : OrderBook) : Prop where
  bids : PositiveQuantities b.bids
  asks : PositiveQuantities b.asks
  volume : activeVolume b.bids + activeVolume b.asks < 2 ^ 63

/-- The prices of the levels that `getMidRaw` counts. -/
def countedPrices (b : OrderBook) : List ℤ :=
  b.bidWalk.value.slots.map (fun i => (b.bids i).price) ++
    b.askWalk.value.slots.map (fun i => (b.asks i).price)

section Mid

variable {b : OrderBook}

theorem countedPrices_eq (b : OrderBook) : b.countedPrices =
    b.bidSlots.map (fun i => (b.bids i).price) ++ b.askSlots.map (fun i => (b.asks i).price) := by
  rw [countedPrices, value_bidWalk, value_askWalk]

theorem Weighted.volume_pos (h : b.Weighted) (hne : b.countedPrices ≠ []) :
    0 < volumeOf b.bids b.bidSlots + volumeOf b.asks b.askSlots := by
  have hbids := volumeOf_nonneg b.bidSlots_counts.active h.bids
  have hasks := volumeOf_nonneg b.askSlots_counts.active h.asks
  by_cases hslots : b.bidSlots = []
  · have hslots' : b.askSlots ≠ [] := by
      intro hempty
      simp [countedPrices_eq, hslots, hempty] at hne
    have := volumeOf_pos b.askSlots_counts.active h.asks hslots'
    omega
  · have := volumeOf_pos b.bidSlots_counts.active h.bids hslots
    omega

theorem Weighted.quotient_bounds (h : b.Weighted) (hne : b.countedPrices ≠ []) {lo hi : ℤ}
    (hprices : ∀ p ∈ b.countedPrices, lo ≤ p ∧ p ≤ hi) :
    lo ≤ b.weightedMid ∧ b.weightedMid ≤ hi := by
  rw [countedPrices_eq] at hprices
  obtain ⟨hlow, hhigh⟩ := notionalOf_bounds b.bidSlots_counts.active h.bids
    (fun i hi => hprices _ (List.mem_append_left _ (List.mem_map_of_mem hi)))
  obtain ⟨hlow', hhigh'⟩ := notionalOf_bounds b.askSlots_counts.active h.asks
    (fun i hi => hprices _ (List.mem_append_right _ (List.mem_map_of_mem hi)))
  refine tdiv_bounds (h.volume_pos hne) ?_ ?_
  · rw [mul_add]
    exact add_le_add hlow hlow'
  · rw [mul_add]
    exact add_le_add hhigh hhigh'

theorem Weighted.midFits (h : b.Weighted) (hreach : b.Reachable) : b.MidFits := by
  obtain ⟨hbids, hasks⟩ := hreach.machine
  have hvolume := h.volume
  have hbidVolume := activeVolume_nonneg h.bids
  have haskVolume := activeVolume_nonneg h.asks
  have hbidFits := sumsFit b.bidSlots_counts hbids h.bids (by omega)
  have haskFits := sumsFit b.askSlots_counts hasks h.asks (by omega)
  have hbidLe := volumeOf_le_activeVolume b.bidSlots_counts.nodup b.bidSlots_counts.active h.bids
  have haskLe := volumeOf_le_activeVolume b.askSlots_counts.nodup b.askSlots_counts.active h.asks
  have hbidNonneg := volumeOf_nonneg b.bidSlots_counts.active h.bids
  have haskNonneg := volumeOf_nonneg b.askSlots_counts.active h.asks
  refine ⟨hbidFits, haskFits, ⟨le_trans (by decide) (add_nonneg hbidNonneg haskNonneg), ?_⟩,
    fun _ => ?_, fun hne => ?_⟩
  · change _ < (2 : ℤ) ^ 63
    omega
  · obtain ⟨hlow, hhigh⟩ := fits_notionalOf hbids b.bidSlots_counts.active h.bids (by omega)
    obtain ⟨hlow', hhigh'⟩ := fits_notionalOf hasks b.askSlots_counts.active h.asks (by omega)
    exact ⟨le_trans (by decide) (add_le_add hlow hlow'),
      lt_of_lt_of_le (add_lt_add hhigh hhigh') (by decide)⟩
  · have hprices : ∀ p ∈ b.countedPrices, -2 ^ 63 ≤ p ∧ p ≤ 2 ^ 63 - 1 := by
      intro p hp
      rw [countedPrices_eq, List.mem_append, List.mem_map, List.mem_map] at hp
      obtain ⟨i, -, rfl⟩ | ⟨i, -, rfl⟩ := hp
      · exact ⟨(hbids i).price.1, Int.le_sub_one_of_lt (hbids i).price.2⟩
      · exact ⟨(hasks i).price.1, Int.le_sub_one_of_lt (hasks i).price.2⟩
    have hslots : b.countedPrices ≠ [] := by
      intro hempty
      rw [countedPrices_eq, List.append_eq_nil_iff, List.map_eq_nil_iff,
        List.map_eq_nil_iff] at hempty
      rw [hempty.1, hempty.2, volumeOf_nil, volumeOf_nil] at hne
      exact hne rfl
    obtain ⟨hlow, hhigh⟩ := h.quotient_bounds hslots hprices
    exact ⟨hlow, Int.lt_of_le_sub_one hhigh⟩

theorem countedPrices_ne_nil
    (hactive : (∃ i, (b.bids i).isActive = true) ∨ ∃ i, (b.asks i).isActive = true) :
    b.countedPrices ≠ [] := by
  have hcounts : ∀ {levels slots}, CountsLevels levels slots →
      (∃ i, (levels i).isActive = true) → slots ≠ [] := by
    rintro levels slots h ⟨i, hi⟩ rfl
    have hpos : 0 < activeLevels levels :=
      Finset.card_pos.mpr ⟨i, Finset.mem_filter.mpr ⟨Finset.mem_univ i, hi⟩⟩
    have hlength := h.length
    rw [List.length_nil, midPriceN] at hlength
    omega
  rw [countedPrices_eq]
  obtain hbid | hask := hactive
  · exact List.append_ne_nil_of_left_ne_nil (by simpa using hcounts b.bidSlots_counts hbid) _
  · exact List.append_ne_nil_of_right_ne_nil _ (by simpa using hcounts b.askSlots_counts hask)

end Mid

/-- In a reachable book with positive quantities below 2^63 in all, `getMidRaw`
counts no slot twice and as many levels of each side as there are, up to five;
nothing in it overflows, and it is 0 or between the counted prices. -/
theorem getMidRaw_average {b : OrderBook} (hreach : b.Reachable) (h : b.Weighted) :
    CountsLevels b.bids b.bidWalk.value.slots ∧ CountsLevels b.asks b.askWalk.value.slots ∧
      NoOverflow b.getMidExact ∧ b.getMidRaw = b.getMidExact.value ∧
      ((∀ i, (b.bids i).isActive = false ∧ (b.asks i).isActive = false) → b.getMidRaw = 0) ∧
      ((∃ i, (b.bids i).isActive = true) ∨ (∃ i, (b.asks i).isActive = true) →
        ∃ lo ∈ b.countedPrices, ∃ hi ∈ b.countedPrices,
          (∀ p ∈ b.countedPrices, lo ≤ p ∧ p ≤ hi) ∧ lo ≤ b.getMidRaw ∧ b.getMidRaw ≤ hi) := by
  obtain ⟨hbids, hasks⟩ := hreach.machine
  have hfits := h.midFits hreach
  have hraw := getMidRaw_of_fits hfits
  rw [value_bidWalk, value_askWalk]
  refine ⟨b.bidSlots_counts, b.askSlots_counts,
    (noOverflow_getMidExact_iff b hbids hasks).mpr hfits,
    hraw.trans b.value_getMidExact.symm, ?_, ?_⟩
  · intro hinactive
    have hnil : ∀ {levels slots}, CountsLevels levels slots →
        (∀ i, (levels i).isActive = false) → slots = [] := by
      intro levels slots hcounts hlevels
      refine List.eq_nil_iff_forall_not_mem.mpr (fun i hi => ?_)
      exact Bool.false_ne_true ((hlevels i).symm.trans (hcounts.active i hi))
    rw [hraw, weightedMid, hnil b.bidSlots_counts (fun i => (hinactive i).1),
      hnil b.askSlots_counts (fun i => (hinactive i).2), volumeOf_nil, volumeOf_nil, add_zero,
      Int.tdiv_zero]
  · intro hactive
    have hne := countedPrices_ne_nil hactive
    have hset : b.countedPrices.toFinset.Nonempty := List.toFinset_nonempty_iff _ |>.mpr hne
    obtain ⟨lo, hlo, hmin⟩ := Finset.exists_min_image _ id hset
    obtain ⟨hi, hhi, hmax⟩ := Finset.exists_max_image _ id hset
    simp only [List.mem_toFinset, id_eq] at hlo hmin hhi hmax
    have hall : ∀ p ∈ b.countedPrices, lo ≤ p ∧ p ≤ hi := fun p hp => ⟨hmin p hp, hmax p hp⟩
    rw [hraw]
    exact ⟨lo, hlo, hi, hhi, hall, h.quotient_bounds hne hall⟩

/-- A bid at 100 and asks at 102 and 103. -/
def threeLevels : OrderBook := addUpdates {}
  [.new 0 .buy 100 2 0 0 0, .new 0 .sell 102 1 0 0 0, .new 0 .sell 103 1 0 0 0]

theorem threeLevels_weighted : threeLevels.Weighted := by
  have hbids : ∀ i, (threeLevels.bids i).isActive = true → 0 < (threeLevels.bids i).quantity := by
    decide +kernel
  have hasks : ∀ i, (threeLevels.asks i).isActive = true → 0 < (threeLevels.asks i).quantity := by
    decide +kernel
  exact ⟨hbids, hasks, by decide +kernel⟩

theorem getMidRaw_average_three_levels :
    threeLevels.getMidRaw = 101 ∧ threeLevels.getMidRaw = threeLevels.getMidExact.value ∧
      ∃ lo ∈ threeLevels.countedPrices, ∃ hi ∈ threeLevels.countedPrices,
        (∀ p ∈ threeLevels.countedPrices, lo ≤ p ∧ p ≤ hi) ∧ lo ≤ threeLevels.getMidRaw ∧
          threeLevels.getMidRaw ≤ hi := by
  obtain ⟨-, -, -, hexact, -, hbetween⟩ := getMidRaw_average ⟨_, rfl⟩ threeLevels_weighted
  exact ⟨by decide +kernel, hexact, hbetween (.inl ⟨100, by decide +kernel⟩)⟩

end HftSystem.OrderBook
