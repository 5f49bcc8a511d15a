import HftSystem.BookMirror
import HftSystem.MachineArithmetic
import HftSystem.WindowLevels
import Mathlib.Algebra.BigOperators.Finsupp.Basic
import Mathlib.Algebra.Order.BigOperators.Group.List
import Mathlib.Data.List.Iterate

/-!
Inside one aligned block of 256 ticks per side the order book is exactly a pair
of finite maps from prices to quantities: zero quantities delete, and a new
price is stored only within 64 ticks of the prices already there. The readings
of the book are the readings of the maps.
-/
namespace HftSystem.OrderBook

open TwosComplement CircularWindow MachineArithmetic

/-- The price lies in the aligned block of number k. -/
def InBlock (k : ℕ) (p : ℤ) : Prop := (lobDepth : ℤ) * k ≤ p ∧ p < lobDepth * k + lobDepth

instance (k : ℕ) (p : ℤ) : Decidable (InBlock k p) := inferInstanceAs (Decidable (_ ∧ _))

theorem InBlock.exists_slot {k : ℕ} {p : ℤ} (h : InBlock k p) :
    ∃ j : Fin lobDepth, p = lobDepth * k + j.val := by
  obtain ⟨hlow, hhigh⟩ := h
  refine ⟨⟨(p - lobDepth * k).toNat, by omega⟩, ?_⟩
  dsimp only
  omega

/-- Reflection at this constant maps block k to itself. -/
def blockMirror (k : ℕ) : ℤ := 2 * (lobDepth * k) + (lobDepth - 1)

theorem blockMirror_sub (k : ℕ) (j : Fin lobDepth) :
    blockMirror k - (lobDepth * k + j.val) = lobDepth * k + j.rev.val := by
  rw [blockMirror, val_rev]
  omega

theorem firstIndex_block (k : ℕ) (j : Fin lobDepth) : firstIndex (lobDepth * k + j.val) = j := by
  have hj := j.isLt
  apply Fin.ext
  simp only [firstIndex, lobDepth] at hj ⊢
  omega

/-! ### The guards inside a block -/

theorem castInt_abs_le {x : ℤ} (hlow : -2 ^ 31 < x) (hhigh : x < 2 ^ 31) :
    castInt |x| ≤ maxShiftStep ↔ -maxShiftStep ≤ x ∧ x ≤ maxShiftStep := by
  have habs := abs_lt.mpr ⟨hlow, hhigh⟩
  have hnonneg := abs_nonneg x
  rw [castInt_of_fits (by omega) habs, abs_le]

/-- Inside a block the ask guards accept what lies within reach: the index guards
never refuse, since the block has no slot beyond its ends. -/
theorem askAccepts_block {b : OrderBook} {k : ℕ} {m : ℤ →₀ ℤ}
    (h : b.askWindow.Represents (lobDepth * k) m) (hpos : 0 < b.askWindow.count)
    (j : Fin lobDepth) :
    b.askAccepts (lobDepth * k + j.val) = true ↔
      Within maxShiftStep m (lobDepth * k + j.val) := by
  have hbest : (b.asks b.bestAskIndex).price = lobDepth * k + b.bestAskIndex.val :=
    h.keys _ (h.tight.best_active hpos)
  have hworst : (b.asks b.worstAskIndex).price = lobDepth * k + b.worstAskIndex.val :=
    h.keys _ (h.tight.worst_active hpos)
  have hle : (b.asks b.bestAskIndex).price ≤ (b.asks b.worstAskIndex).price :=
    h.tight.lower _ (h.tight.worst_active hpos)
  rw [h.within_iff hpos]
  change _ ↔ (b.asks b.bestAskIndex).price - maxShiftStep ≤ _ ∧
    _ ≤ (b.asks b.worstAskIndex).price + maxShiftStep
  have hj := j.isLt
  have hi := b.bestAskIndex.isLt
  have hw := b.worstAskIndex.isLt
  have hdepth : lobDepth = 256 := rfl
  have hmax : maxShiftStep = 64 := rfl
  by_cases hbw : b.bestAskIndex = b.worstAskIndex
  · rw [askAccepts_single hbw, decide_eq_true_iff, hworst, hbest, ← hbw]
    rw [castInt_abs_le (by omega) (by omega)]
    omega
  by_cases hlow : (lobDepth * k + j.val : ℤ) < (b.asks b.bestAskIndex).price
  · rw [askAccepts_lower hbw hlow, decide_eq_true_iff, hworst, hbest]
    rw [castInt_of_fits (by omega) (by omega), castInt_of_fits (by omega) (by omega)]
    omega
  by_cases hhigh : (b.asks b.worstAskIndex).price < lobDepth * k + j.val
  · rw [askAccepts_raise hbw hlow hhigh, decide_eq_true_iff, hworst, hbest]
    rw [castInt_of_fits (by omega) (by omega), castInt_of_fits (by omega) (by omega)]
    omega
  · have haccept : b.askAccepts (lobDepth * k + j.val) = true := by
      simp only [askAccepts, if_neg hbw, if_neg hlow, if_neg hhigh]
    refine iff_of_true haccept ⟨by omega, by omega⟩

theorem bidAccepts_block {b : OrderBook} {k : ℕ} {m : ℤ →₀ ℤ}
    (h : (b.bidWindow (blockMirror k)).Represents (lobDepth * k) m)
    (hpos : 0 < (b.bidWindow (blockMirror k)).count) (j : Fin lobDepth) :
    b.bidAccepts (lobDepth * k + j.val) = true ↔
      Within maxShiftStep m (lobDepth * k + j.rev.val) := by
  have hbest : blockMirror k - (b.bids b.bestBidIndex).price =
      lobDepth * k + b.bestBidIndex.rev.val := by
    rw [← bidWindow_key]
    exact h.keys _ (h.tight.best_active hpos)
  have hworst : blockMirror k - (b.bids b.worstBidIndex).price =
      lobDepth * k + b.worstBidIndex.rev.val := by
    rw [← bidWindow_key]
    exact h.keys _ (h.tight.worst_active hpos)
  have hle := h.tight.lower _ (h.tight.worst_active hpos)
  rw [h.within_iff hpos]
  change (b.bidWindow (blockMirror k)).key b.bestBidIndex.rev ≤
    (b.bidWindow (blockMirror k)).key b.worstBidIndex.rev at hle
  change _ ↔ (b.bidWindow (blockMirror k)).key b.bestBidIndex.rev - maxShiftStep ≤ _ ∧
    _ ≤ (b.bidWindow (blockMirror k)).key b.worstBidIndex.rev + maxShiftStep
  rw [bidWindow_key, bidWindow_key] at hle ⊢
  rw [blockMirror, val_rev] at hbest hworst
  rw [blockMirror, val_rev]
  have hj := j.isLt
  have hi := b.bestBidIndex.isLt
  have hw := b.worstBidIndex.isLt
  have hdepth : lobDepth = 256 := rfl
  have hmax : maxShiftStep = 64 := rfl
  have hbest' : (b.bids b.bestBidIndex).price = lobDepth * k + b.bestBidIndex.val := by omega
  have hworst' : (b.bids b.worstBidIndex).price = lobDepth * k + b.worstBidIndex.val := by omega
  by_cases hbw : b.bestBidIndex = b.worstBidIndex
  · rw [bidAccepts_single hbw, decide_eq_true_iff, hworst', hbest', ← hbw]
    rw [castInt_abs_le (by omega) (by omega)]
    omega
  by_cases hhigh : (lobDepth * k + j.val : ℤ) > (b.bids b.bestBidIndex).price
  · rw [bidAccepts_raise hbw hhigh, decide_eq_true_iff, hworst', hbest']
    rw [castInt_of_fits (by omega) (by omega), castInt_of_fits (by omega) (by omega)]
    omega
  by_cases hlow : (lobDepth * k + j.val : ℤ) < (b.bids b.worstBidIndex).price
  · rw [bidAccepts_lower hbw hhigh hlow, decide_eq_true_iff, hworst', hbest']
    rw [castInt_of_fits (by omega) (by omega), castInt_of_fits (by omega) (by omega)]
    omega
  · have haccept : b.bidAccepts (lobDepth * k + j.val) = true := by
      simp only [bidAccepts, if_neg hbw, if_neg hhigh, if_neg hlow]
    refine iff_of_true haccept ⟨by omega, by omega⟩

/-! ### Runs inside blocks -/

/-- The updates that reach the ask side, as prices and quantities. -/
def askUpdates (us : List MarketUpdate) : List (ℤ × ℤ) :=
  (us.filter (fun u => u.side = .sell)).map (fun u => (u.price.toInt, u.quantity.toInt))

def bidUpdates (us : List MarketUpdate) : List (ℤ × ℤ) :=
  (us.filter (fun u => u.side ≠ .sell)).map (fun u => (u.price.toInt, u.quantity.toInt))

/-- Both sides represent their maps; the bids do so reflected. -/
structure Refines (ka kb : ℕ) (b : OrderBook) (asks bids : ℤ →₀ ℤ) : Prop where
  asks : b.askWindow.Represents (lobDepth * ka) asks
  bids : (b.bidWindow (blockMirror kb)).Represents (lobDepth * kb) (reflect (blockMirror kb) bids)

variable {ka kb : ℕ} {b : OrderBook} {asks bids : ℤ →₀ ℤ}

theorem addUpdate_refines_sell (h : Refines ka kb b asks bids) {u : MarketUpdate}
    (hside : u.side = .sell) (hblock : InBlock ka u.price.toInt) :
    Refines ka kb (b.addUpdate u) (put maxShiftStep asks u.price.toInt u.quantity.toInt) bids := by
  obtain ⟨j, hj⟩ := hblock.exists_slot
  refine ⟨?_, ?_⟩
  · rw [addUpdate_askWindow, if_pos hside, hj, firstIndex_block]
    by_cases hq : u.quantity.toInt = 0
    · rw [if_pos hq, put, if_pos hq]
      exact h.asks.remove 0 j
    · rw [if_neg hq]
      exact h.asks.insert (by decide) maxShiftStep (by decide) _ j hq
        (fun hpos => askAccepts_block h.asks hpos j)
  · rw [addUpdate_bidWindow, if_pos hside]
    exact h.bids

theorem addUpdate_refines_buy (h : Refines ka kb b asks bids) {u : MarketUpdate}
    (hside : u.side ≠ .sell) (hblock : InBlock kb u.price.toInt) :
    Refines ka kb (b.addUpdate u) asks (put maxShiftStep bids u.price.toInt u.quantity.toInt) := by
  obtain ⟨j, hj⟩ := hblock.exists_slot
  refine ⟨?_, ?_⟩
  · rw [addUpdate_askWindow, if_neg hside]
    exact h.asks
  · rw [addUpdate_bidWindow, if_neg hside, ← put_reflect, hj, firstIndex_block, blockMirror_sub]
    by_cases hq : u.quantity.toInt = 0
    · rw [if_pos hq, put, if_pos hq]
      exact h.bids.remove _ j.rev
    · rw [if_neg hq]
      exact h.bids.insert (by decide) maxShiftStep (by decide) _ j.rev hq
        (fun hpos => bidAccepts_block h.bids hpos j)

theorem addUpdates_refines (us : List MarketUpdate) (h : Refines ka kb b asks bids)
    (hsell : ∀ u ∈ us, u.side = .sell → InBlock ka u.price.toInt)
    (hbuy : ∀ u ∈ us, u.side ≠ .sell → InBlock kb u.price.toInt) :
    Refines ka kb (b.addUpdates us) (putAll maxShiftStep asks (askUpdates us))
      (putAll maxShiftStep bids (bidUpdates us)) := by
  induction us generalizing b asks bids with
  | nil => exact h
  | cons u us ih =>
    have hsell' := fun v hv => hsell v (List.mem_cons_of_mem u hv)
    have hbuy' := fun v hv => hbuy v (List.mem_cons_of_mem u hv)
    rw [addUpdates_cons]
    by_cases hside : u.side = .sell
    · have hasks : askUpdates (u :: us) = (u.price.toInt, u.quantity.toInt) :: askUpdates us := by
        simp [askUpdates, hside]
      have hbids : bidUpdates (u :: us) = bidUpdates us := by simp [bidUpdates, hside]
      rw [hasks, hbids]
      exact ih (addUpdate_refines_sell h hside (hsell u List.mem_cons_self hside)) hsell' hbuy'
    · have hasks : askUpdates (u :: us) = askUpdates us := by simp [askUpdates, hside]
      have hbids : bidUpdates (u :: us) = (u.price.toInt, u.quantity.toInt) :: bidUpdates us := by
        simp [bidUpdates, hside]
      rw [hasks, hbids]
      exact ih (addUpdate_refines_buy h hside (hbuy u List.mem_cons_self hside)) hsell' hbuy'

theorem reflect_zero (c : ℤ) : reflect c 0 = 0 := (reflect_eq_zero_iff c 0).mpr rfl

theorem fresh_refines (ka kb : ℕ) : Refines ka kb {} 0 0 := by
  refine ⟨.of_empty fresh_askWindow_empty, ?_⟩
  rw [reflect_zero]
  exact .of_empty (fresh_bidWindow_empty _)

/-! ### Levels and best prices -/

/-- The active levels of a side are the entries of the map, the counter is its
size, and the best slot holds the entry of extreme price. -/
structure SideMatches (extreme : Set ℤ → ℤ → Prop) (levels : Fin lobDepth → PriceLevel)
    (count : Int32) (bestPrice bestQty : ℤ) (m : ℤ →₀ ℤ) : Prop where
  entries : ∀ p q, (∃ i, levels i = ⟨p, q, true⟩) ↔ m p = q ∧ q ≠ 0
  unique : ∀ i j, (levels i).isActive = true → (levels j).isActive = true →
    (levels i).price = (levels j).price → i = j
  counted : count.toInt = m.support.card
  best : m ≠ 0 → extreme m.support bestPrice ∧ bestQty = m bestPrice

theorem askWindow_level (b : OrderBook) (p q : ℤ) (i : Fin lobDepth) :
    b.asks i = ⟨p, q, true⟩ ↔
      b.askWindow.Active i ∧ b.askWindow.key i = p ∧ (b.askWindow.slot i).value = q := by
  change _ ↔ (b.asks i).isActive = true ∧ (b.asks i).price = p ∧ (b.asks i).quantity = q
  cases b.asks i
  simp only [PriceLevel.mk.injEq]
  tauto

theorem bidWindow_level (c : ℤ) (b : OrderBook) (p q : ℤ) (i : Fin lobDepth) :
    b.bids i = ⟨p, q, true⟩ ↔ (b.bidWindow c).Active i.rev ∧ (b.bidWindow c).key i.rev = c - p ∧
      ((b.bidWindow c).slot i.rev).value = q := by
  rw [bidWindow_active, bidWindow_key]
  simp only [bidWindow, Fin.rev_rev]
  cases b.bids i
  simp only [PriceLevel.mk.injEq]
  constructor
  · rintro ⟨rfl, rfl, rfl⟩
    exact ⟨rfl, rfl, rfl⟩
  · rintro ⟨hactive, hprice, hqty⟩
    exact ⟨by omega, hqty, hactive⟩

/-- The entries of a represented map are the levels of the window. -/
theorem represents_levels {w : Window lobDepth ℤ} {base : ℤ} {m : ℤ →₀ ℤ}
    (h : w.Represents base m) (p q : ℤ) :
    (∃ i, w.Active i ∧ w.key i = p ∧ (w.slot i).value = q) ↔ m p = q ∧ q ≠ 0 := by
  constructor
  · rintro ⟨i, hi, rfl, rfl⟩
    exact ⟨(h.value_eq hi).symm, h.nonzero i hi⟩
  · rintro ⟨rfl, hne⟩
    obtain ⟨i, hi, hkey⟩ := (h.mem_support_iff p).mp (Finsupp.mem_support_iff.mpr hne)
    refine ⟨i, hi, hkey, ?_⟩
    rw [h.value_eq hi, hkey]

theorem Refines.asks_match (h : Refines ka kb b asks bids) :
    SideMatches IsLeast b.asks b.numOfAsks b.getBestAskRaw b.getBestAskQtyRaw asks where
  entries p q := by
    rw [← represents_levels h.asks]
    exact exists_congr (askWindow_level b p q)
  unique i j hi hj hp := h.asks.tight.aligned.key_injective hi hj hp
  counted := (toInt_of_tight h.asks.tight rfl).trans (by rw [h.asks.count_eq_card])
  best hne := by
    have hpos : 0 < b.askWindow.count := Nat.pos_of_ne_zero (mt h.asks.eq_zero_iff.mpr hne)
    exact ⟨h.asks.isLeast_best hpos, h.asks.value_eq (h.asks.tight.best_active hpos)⟩

theorem card_reflect (c : ℤ) (m : ℤ →₀ ℤ) : (reflect c m).support.card = m.support.card := by
  refine Finset.card_equiv (Equiv.subLeft c) ?_
  intro p
  rw [mem_support_reflect]
  rfl

theorem Refines.bids_match (h : Refines ka kb b asks bids) :
    SideMatches IsGreatest b.bids b.numOfBids b.getBestBidRaw b.getBestBidQtyRaw bids where
  entries p q := by
    have hlevels := represents_levels h.bids (blockMirror kb - p) q
    rw [reflect_apply, sub_sub_cancel] at hlevels
    rw [← hlevels, Fin.rev_surjective.exists]
    refine exists_congr ?_
    intro i
    rw [bidWindow_level (blockMirror kb), Fin.rev_rev]
  unique i j hi hj hp := by
    refine Fin.rev_injective (h.bids.tight.aligned.key_injective
      ((bidWindow_active _ b i).mpr hi) ((bidWindow_active _ b j).mpr hj) ?_)
    rw [bidWindow_key, bidWindow_key, hp]
  counted := (toInt_of_tight h.bids.tight rfl).trans (by rw [h.bids.count_eq_card, card_reflect])
  best hne := by
    have hpos : 0 < (b.bidWindow (blockMirror kb)).count := by
      refine Nat.pos_of_ne_zero (mt h.bids.eq_zero_iff.mpr ?_)
      rwa [reflect_eq_zero_iff]
    have hleast := isGreatest_reflect (c := blockMirror kb) (h.bids.isLeast_best hpos)
    have hvalue := h.bids.value_eq (h.bids.tight.best_active hpos)
    change IsGreatest _ (_ - (b.bidWindow (blockMirror kb)).key b.bestBidIndex.rev) at hleast
    change ((b.bidWindow (blockMirror kb)).slot b.bestBidIndex.rev).value =
      reflect _ bids ((b.bidWindow (blockMirror kb)).key b.bestBidIndex.rev) at hvalue
    rw [reflect_reflect, bidWindow_key, sub_sub_cancel] at hleast
    rw [reflect_apply, bidWindow_key, sub_sub_cancel] at hvalue
    simp only [bidWindow, Fin.rev_rev] at hvalue
    exact ⟨hleast, hvalue⟩

/-! ### The five-level walk -/

def notional (l : PriceLevel) : ℤ := l.price * l.quantity

/-- The levels that the walk of `getMidRaw` adds up, in the order met. -/
def walked (levels : Fin lobDepth → PriceLevel) (slots : List (Fin lobDepth)) (left : ℕ) :
    List PriceLevel :=
  ((slots.filter (fun i => (levels i).isActive)).map levels).take left

theorem walked_cons_active {levels : Fin lobDepth → PriceLevel} {i : Fin lobDepth}
    (hactive : (levels i).isActive = true) (slots : List (Fin lobDepth)) (left : ℕ) :
    walked levels (i :: slots) (left + 1) = levels i :: walked levels slots left := by
  simp [walked, hactive]

theorem walked_cons_inactive {levels : Fin lobDepth → PriceLevel} {i : Fin lobDepth}
    (hactive : ¬ (levels i).isActive = true) (slots : List (Fin lobDepth)) (left : ℕ) :
    walked levels (i :: slots) left = walked levels slots left := by
  simp [walked, hactive]

theorem midLoop_eq (levels : Fin lobDepth → PriceLevel) (next : Fin lobDepth → Fin lobDepth)
    (steps : ℕ) (idx : Fin lobDepth) (found : ℕ) (sum vol : ℤ) :
    midLoop levels next steps idx found (truncate 128 sum) (truncate 64 vol) =
      (truncate 128 (sum + ((walked levels (List.iterate next idx steps)
          (midPriceN - found)).map notional).sum),
        truncate 64 (vol + ((walked levels (List.iterate next idx steps)
          (midPriceN - found)).map PriceLevel.quantity).sum)) := by
  induction steps generalizing idx found sum vol with
  | zero => simp [midLoop, walked]
  | succ steps ih =>
    rw [midLoop, List.iterate]
    by_cases hfound : found < midPriceN
    · rw [if_pos hfound]
      by_cases hactive : (levels idx).isActive = true
      · have hleft : midPriceN - found = midPriceN - (found + 1) + 1 := by omega
        rw [if_pos hactive, truncate_add_truncate, truncate_add_truncate, ih, hleft,
          walked_cons_active hactive]
        simp only [List.map_cons, List.sum_cons, notional, add_assoc]
      · rw [if_neg hactive, ih, walked_cons_inactive hactive]
    · have hleft : midPriceN - found = 0 := by omega
      rw [if_neg hfound, hleft]
      simp [walked]

theorem iterate_slotAfter (idx : Fin lobDepth) (d : ℕ) :
    (fun i => slotAfter i 1)^[d] idx = slotAfter idx d := by
  induction d with
  | zero =>
    apply Fin.ext
    simp [slotAfter, Nat.mod_eq_of_lt idx.isLt]
  | succ d ih =>
    rw [Function.iterate_succ_apply', ih]
    apply Fin.ext
    simp only [slotAfter, Nat.mod_add_mod, add_assoc]

theorem iterate_slotBefore (idx : Fin lobDepth) (d : ℕ) :
    (fun i => slotBefore i 1)^[d] idx.rev = (slotAfter idx d).rev := by
  induction d with
  | zero =>
    apply congrArg
    apply Fin.ext
    simp [slotAfter, Nat.mod_eq_of_lt idx.isLt]
  | succ d ih =>
    rw [Function.iterate_succ_apply', ih]
    apply Fin.ext
    simp only [slotAfter, slotBefore, Fin.val_rev, lobDepth]
    omega

theorem tour_asks (b : OrderBook) :
    List.iterate (fun idx => slotAfter idx 1) b.bestAskIndex lobDepth = b.askWindow.tour := by
  rw [← List.range_map_iterate, Window.tour]
  apply List.map_congr_left
  intro d _
  rw [iterate_slotAfter, slotAfter_eq_above]
  rfl

theorem tour_bids (c : ℤ) (b : OrderBook) :
    List.iterate (fun idx => slotBefore idx 1) b.bestBidIndex lobDepth =
      (b.bidWindow c).tour.map Fin.rev := by
  rw [← List.range_map_iterate, Window.tour, List.map_map]
  apply List.map_congr_left
  intro d _
  rw [← Fin.rev_rev b.bestBidIndex, iterate_slotBefore, slotAfter_eq_above]
  rfl

/-! ### The mid price of two maps -/

/-- The five lowest prices of a map. -/
def topAsks (m : ℤ →₀ ℤ) : List ℤ := (m.support.sort (· ≤ ·)).take midPriceN

/-- The five highest prices of a map. -/
def topBids (m : ℤ →₀ ℤ) : List ℤ := (m.support.sort (· ≥ ·)).take midPriceN

/-- The volume-weighted price of the best five levels of each side. -/
def midOf (asks bids : ℤ →₀ ℤ) : ℤ :=
  (((topBids bids).map (fun p => p * bids p)).sum +
      ((topAsks asks).map (fun p => p * asks p)).sum).tdiv
    (((topBids bids).map bids).sum + ((topAsks asks).map asks).sum)

theorem walked_asks (h : Refines ka kb b asks bids) :
    walked b.asks (List.iterate (fun idx => slotAfter idx 1) b.bestAskIndex lobDepth) midPriceN =
      (topAsks asks).map (fun p => ⟨p, asks p, true⟩) := by
  rw [tour_asks, topAsks, ← h.asks.keys_tour, walked, ← List.map_take, ← List.map_take,
    List.map_map]
  apply List.map_congr_left
  intro i hi
  have hactive : b.askWindow.Active i := (List.mem_filter.mp (List.mem_of_mem_take hi)).2
  exact (askWindow_level b _ _ i).mpr ⟨hactive, rfl, h.asks.value_eq hactive⟩

theorem walked_bids (h : Refines ka kb b asks bids) :
    walked b.bids (List.iterate (fun idx => slotBefore idx 1) b.bestBidIndex lobDepth) midPriceN =
      (topBids bids).map (fun p => ⟨p, bids p, true⟩) := by
  rw [tour_bids (blockMirror kb), topBids, sort_reflect (blockMirror kb), ← h.bids.keys_tour,
    walked, List.filter_map, ← List.map_take, ← List.map_take, ← List.map_take, ← List.map_take,
    List.map_map, List.map_map, List.map_map]
  apply List.map_congr_left
  intro i hi
  have hactive : (b.bidWindow (blockMirror kb)).Active i :=
    (List.mem_filter.mp (List.mem_of_mem_take hi)).2
  refine (bidWindow_level (blockMirror kb) b _ _ i.rev).mpr ?_
  rw [Fin.rev_rev]
  have hvalue := h.bids.value_eq hactive
  rw [reflect_apply] at hvalue
  exact ⟨hactive, (sub_sub_cancel _ _).symm, hvalue⟩

/-- Sums of prices times quantities stay below the greatest price times the volume. -/
theorem weighted_bounds (m : ℤ → ℤ) (l : List ℤ) (hprice : ∀ p ∈ l, 0 ≤ p ∧ p < 2 ^ 63)
    (hqty : ∀ p ∈ l, 0 < m p) :
    0 ≤ (l.map (fun p => p * m p)).sum ∧
      (l.map (fun p => p * m p)).sum ≤ (2 ^ 63 - 1) * (l.map m).sum ∧ 0 ≤ (l.map m).sum := by
  obtain ⟨hlow, hhigh⟩ := weighted_sum_bounds (fun p hp => (hqty p hp).le)
    (fun p hp => ⟨(hprice p hp).1, Int.le_sub_one_of_lt (hprice p hp).2⟩)
  rw [zero_mul] at hlow
  refine ⟨hlow, hhigh, List.sum_nonneg (fun q hq => ?_)⟩
  obtain ⟨p, hp, rfl⟩ := List.mem_map.mp hq
  exact (hqty p hp).le

theorem sum_take_sort_le (m : ℤ →₀ ℤ) (hqty : ∀ p ∈ m.support, 0 < m p) (r : ℤ → ℤ → Prop)
    [DecidableRel r] [IsTrans ℤ r] [Std.Antisymm r] [Std.Total r] (k : ℕ) :
    (((m.support.sort r).take k).map m).sum ≤ m.sum (fun _ q => q) := by
  have hall : ((m.support.sort r).map m).sum = m.sum (fun _ q => q) := by
    rw [((m.support.sort_perm_toList r).map m).sum_eq, Finset.sum_map_toList]
    rfl
  rw [← hall]
  refine ((List.take_sublist k _).map m).sum_le_sum ?_
  intro q hq
  obtain ⟨p, hp, rfl⟩ := List.mem_map.mp hq
  exact (hqty p ((Finset.mem_sort r).mp hp)).le

theorem mem_support_of_mem_topAsks {m : ℤ →₀ ℤ} {p : ℤ} (hp : p ∈ topAsks m) : p ∈ m.support :=
  (Finset.mem_sort _).mp (List.mem_of_mem_take hp)

theorem mem_support_of_mem_topBids {m : ℤ →₀ ℤ} {p : ℤ} (hp : p ∈ topBids m) : p ∈ m.support :=
  (Finset.mem_sort _).mp (List.mem_of_mem_take hp)

/-- The accumulators of the walk do not overflow, so its truncations change nothing. -/
theorem Refines.getMidRaw_eq (h : Refines ka kb b asks bids)
    (hask : ∀ p ∈ asks.support, (0 ≤ p ∧ p < 2 ^ 63) ∧ 0 < asks p)
    (hbid : ∀ p ∈ bids.support, (0 ≤ p ∧ p < 2 ^ 63) ∧ 0 < bids p)
    (htotal : asks.sum (fun _ q => q) + bids.sum (fun _ q => q) < 2 ^ 63) :
    b.getMidRaw = midOf asks bids := by
  obtain ⟨hasum, habound, havol⟩ := weighted_bounds asks (topAsks asks)
    (fun p hp => (hask p (mem_support_of_mem_topAsks hp)).1)
    (fun p hp => (hask p (mem_support_of_mem_topAsks hp)).2)
  obtain ⟨hbsum, hbbound, hbvol⟩ := weighted_bounds bids (topBids bids)
    (fun p hp => (hbid p (mem_support_of_mem_topBids hp)).1)
    (fun p hp => (hbid p (mem_support_of_mem_topBids hp)).2)
  have hatop : ((topAsks asks).map asks).sum ≤ asks.sum (fun _ q => q) :=
    sum_take_sort_le asks (fun p hp => (hask p hp).2) (· ≤ ·) midPriceN
  have hbtop : ((topBids bids).map bids).sum ≤ bids.sum (fun _ q => q) :=
    sum_take_sort_le bids (fun p hp => (hbid p hp).2) (· ≥ ·) midPriceN
  have hasks := midLoop_eq b.asks (fun idx => slotAfter idx 1) lobDepth b.bestAskIndex 0 0 0
  have hbids := midLoop_eq b.bids (fun idx => slotBefore idx 1) lobDepth b.bestBidIndex 0 0 0
  rw [Nat.sub_zero, walked_asks h, List.map_map, List.map_map] at hasks
  rw [Nat.sub_zero, walked_bids h, List.map_map, List.map_map] at hbids
  have hzero : ∀ w, truncate w 0 = 0 := fun _ => Int.zero_bmod
  simp only [hzero, zero_add, Function.comp_def, notional] at hasks hbids
  unfold getMidRaw midOf
  rw [hasks, hbids]
  dsimp only
  generalize ((topAsks asks).map (fun p => p * asks p)).sum = asksSum at *
  generalize ((topBids bids).map (fun p => p * bids p)).sum = bidsSum at *
  generalize ((topAsks asks).map (fun p => asks p)).sum = asksVol at *
  generalize ((topBids bids).map (fun p => bids p)).sum = bidsVol at *
  have htrunc : ∀ x : ℤ, 0 ≤ x → x < 2 ^ 63 → truncate 64 x = x := fun x hlow hhigh =>
    truncate_of_fits (by decide) ⟨by omega, hhigh⟩
  have htrunc' : ∀ x : ℤ, 0 ≤ x → x < 2 ^ 127 → truncate 128 x = x := fun x hlow hhigh =>
    truncate_of_fits (by decide) ⟨by omega, hhigh⟩
  rw [htrunc bidsVol (by omega) (by omega), htrunc asksVol (by omega) (by omega),
    htrunc (bidsVol + asksVol) (by omega) (by omega), htrunc' bidsSum (by omega) (by omega),
    htrunc' asksSum (by omega) (by omega), htrunc' (bidsSum + asksSum) (by omega) (by omega)]
  split
  · rename_i hvol
    rw [hvol, Int.tdiv_zero]
  · rename_i hvol
    have hquot : (bidsSum + asksSum).tdiv (bidsVol + asksVol) ≤ 2 ^ 63 - 1 := by
      rw [Int.tdiv_eq_ediv_of_nonneg (by omega)]
      refine Int.ediv_le_of_le_mul (by omega) ?_
      rw [mul_add]
      omega
    exact htrunc _ (Int.tdiv_nonneg (by omega) (by omega)) (by omega)

theorem stored_price_range {k : ℕ} {us : List MarketUpdate} {side : MarketUpdate → Bool}
    (hblock : ∀ u ∈ us, side u = true → InBlock k u.price.toInt) {p : ℤ}
    (hp : p ∈ (putAll maxShiftStep 0
      ((us.filter side).map (fun u => (u.price.toInt, u.quantity.toInt)))).support) :
    0 ≤ p ∧ p < 2 ^ 63 := by
  obtain hnone | ⟨_, hu, rfl⟩ := mem_support_putAll hp
  · exact absurd hnone (by simp)
  obtain ⟨u, hfilter, rfl⟩ := List.mem_map.mp hu
  obtain ⟨humem, hside⟩ := List.mem_filter.mp hfilter
  have hlow := (hblock u humem hside).1
  exact ⟨le_trans (by positivity) hlow, Int64.toInt_lt u.price⟩

/-- Along every run whose prices stay in one aligned block per side, the book is
the pair of reference maps, level by level and reading by reading. -/
theorem block_refinement (ka kb : ℕ) (us : List MarketUpdate)
    (hsell : ∀ u ∈ us, u.side = .sell → InBlock ka u.price.toInt)
    (hbuy : ∀ u ∈ us, u.side ≠ .sell → InBlock kb u.price.toInt) :
    let b := addUpdates {} us
    let asks := putAll maxShiftStep 0 (askUpdates us)
    let bids := putAll maxShiftStep 0 (bidUpdates us)
    SideMatches IsLeast b.asks b.numOfAsks b.getBestAskRaw b.getBestAskQtyRaw asks ∧
      SideMatches IsGreatest b.bids b.numOfBids b.getBestBidRaw b.getBestBidQtyRaw bids ∧
      (asks ≠ 0 ∨ bids ≠ 0 → (∀ p ∈ asks.support, 0 < asks p) → (∀ p ∈ bids.support, 0 < bids p) →
        asks.sum (fun _ q => q) + bids.sum (fun _ q => q) < 2 ^ 63 →
          b.getMidRaw = midOf asks bids) := by
  intro b asks bids
  have h : Refines ka kb b asks bids := addUpdates_refines us (fresh_refines ka kb) hsell hbuy
  refine ⟨h.asks_match, h.bids_match, ?_⟩
  intro _ hask hbid htotal
  exact h.getMidRaw_eq (fun p hp => ⟨stored_price_range (by simpa using hsell) hp, hask p hp⟩)
    (fun p hp => ⟨stored_price_range (by simpa using hbuy) hp, hbid p hp⟩) htotal

theorem putAll_single (reach p : ℤ) {v : ℤ} (hv : v ≠ 0) :
    putAll reach 0 [(p, v)] = Finsupp.single p v := by
  change put reach 0 p v = _
  rw [put, if_neg hv, if_pos (Or.inl rfl)]
  ext q
  rw [Finsupp.update_apply, Finsupp.single_apply, Finsupp.zero_apply]
  simp only [eq_comm]

/-- One ask of 5 at 300 and one bid of 3 at 299. -/
theorem block_refinement_one_level :
    (addUpdates {} [.new 0 .sell 300 5 0 0 0, .new 0 .buy 299 3 0 0 0]).getMidRaw =
      midOf (Finsupp.single 300 5) (Finsupp.single 299 3) := by
  have h := (block_refinement 1 1 [.new 0 .sell 300 5 0 0 0, .new 0 .buy 299 3 0 0 0]
    (by decide) (by decide)).2.2
  have hasks : askUpdates [.new 0 .sell 300 5 0 0 0, .new 0 .buy 299 3 0 0 0] =
      [(300, 5)] := by decide
  have hbids : bidUpdates [.new 0 .sell 300 5 0 0 0, .new 0 .buy 299 3 0 0 0] =
      [(299, 3)] := by decide
  rw [hasks, hbids, putAll_single _ _ (by decide), putAll_single _ _ (by decide)] at h
  refine h (Or.inl (by simp)) ?_ ?_ ?_
  · intro p hp
    rw [Finset.mem_singleton.mp (Finsupp.support_single_subset hp)]
    simp
  · intro p hp
    rw [Finset.mem_singleton.mp (Finsupp.support_single_subset hp)]
    simp
  · rw [Finsupp.sum_single_index rfl, Finsupp.sum_single_index rfl]
    decide

end HftSystem.OrderBook
