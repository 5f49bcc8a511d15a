import HftSystem.BookEdits
import HftSystem.MachineArithmetic

/-!
Laws of single updates. Adds outside the window are dropped unless the narrowing of
their distance hides it; adds within the window are stored unless an endpoint would
leave the array; a removal clears whatever level shares the slot of its price; a side
that has been emptied shows the last price that was stored in slot 0.
-/
namespace HftSystem.OrderBook

open CircularWindow Transitions Tracing TwosComplement MachineArithmetic

/-! ### Reachable books -/

def Reachable (b : OrderBook) : Prop := ∃ us, b = addUpdates {} us

/-- Reached by a run that takes no level counter out of its range. -/
def Counted (b : OrderBook) : Prop :=
  ∃ us, StepsMeet addUpdate CounterFits {} us ∧ b = addUpdates {} us

theorem Sound.side {b : OrderBook} (h : Sound b.askWindow ∧ Sound (b.bidWindow 0)) (s : Side) :
    Sound (b.window s) := by
  unfold window
  split
  · exact h.1
  · exact h.2

theorem Counted.sound {b : OrderBook} (h : b.Counted) (s : Side) : Sound (b.window s) := by
  obtain ⟨us, hfits, rfl⟩ := h
  exact .side (addUpdates_sound hfits (List.prefix_refl us)) s

theorem Counted.lookupSound {b : OrderBook} (h : b.Counted) (s : Side) :
    LookupSound (b.side s).levels (b.slotOf s) (b.side s).count := by
  have hsound := h.sound s
  unfold window at hsound
  unfold side slotOf
  by_cases hs : s = .sell
  · simp only [hs, if_true, ne_eq, not_true_eq_false, decide_false] at hsound ⊢
    exact lookupSound_asks hsound
  · simp only [ne_eq, hs, not_false_eq_true, decide_true, if_false] at hsound ⊢
    exact lookupSound_bids hsound

theorem Counted.count_ne_zero {b : OrderBook} (h : b.Counted) {s : Side} {i : Fin lobDepth}
    (hi : (b.side s).Active i) : (b.side s).count ≠ 0 := by
  intro hzero
  have hinactive := (h.lookupSound s).empty hzero i
  rw [BookSide.Active, hinactive] at hi
  contradiction

theorem quantity_ne_zero {u : MarketUpdate} (hq : u.quantity ≠ 0) : u.quantity.toInt ≠ 0 := by
  intro hzero
  exact hq (Int64.toInt_inj.mp hzero)

/-! ### Adds outside the window -/

/-- The price is more than the largest step below all levels or above all levels. -/
def OutsideWindow (S : BookSide) (p : ℤ) : Prop :=
  (∀ i, S.Active i → p < (S.levels i).price - maxShiftStep) ∨
    (∀ i, S.Active i → (S.levels i).price + maxShiftStep < p)

instance (S : BookSide) (p : ℤ) : Decidable (OutsideWindow S p) :=
  inferInstanceAs (Decidable (_ ∨ _))

/-- Both endpoints are more than the largest step away from the price, on the same side. -/
theorem ends_outside {S : BookSide} {p : ℤ} (hbest : S.Active S.best) (hworst : S.Active S.worst)
    (hout : OutsideWindow S p) :
    (p < (S.levels S.best).price - 64 ∧ p < (S.levels S.worst).price - 64) ∨
      ((S.levels S.best).price + 64 < p ∧ (S.levels S.worst).price + 64 < p) := by
  have hmax : maxShiftStep = 64 := rfl
  rcases hout with hlow | hhigh
  · exact Or.inl ⟨hlow _ hbest, hlow _ hworst⟩
  · exact Or.inr ⟨hhigh _ hbest, hhigh _ hworst⟩

/-- As long as the narrowing keeps the distances, the guards reject the price. -/
theorem accepts_outside {b : OrderBook} {s : Side} {p : ℤ}
    (hbest : (b.side s).Active (b.side s).best) (hworst : (b.side s).Active (b.side s).worst)
    (hout : OutsideWindow (b.side s) p)
    (hnear : ∀ i, (b.side s).Active i → |p - ((b.side s).levels i).price| < 2 ^ 31) :
    b.accepts s p = false := by
  have hmax : maxShiftStep = 64 := rfl
  have hnearBest := hnear _ hbest
  have hnearWorst := hnear _ hworst
  have hends := ends_outside hbest hworst hout
  rw [abs_lt] at hnearBest hnearWorst
  unfold side at hends hnearBest hnearWorst
  unfold accepts
  by_cases hs : s = .sell
  · simp only [if_pos hs] at hends hnearBest hnearWorst ⊢
    by_cases hbw : b.bestAskIndex = b.worstAskIndex
    · rw [askAccepts_single hbw, castInt_abs (by rw [abs_lt]; omega)]
      refine decide_eq_false ?_
      rw [abs_le]
      omega
    rcases hends with hlow | hhigh
    · rw [askAccepts_lower hbw (by omega), castInt_of_fits (by omega) (by omega)]
      exact decide_eq_false (by omega)
    · rw [askAccepts_raise hbw (by omega) (by omega), castInt_of_fits (by omega) (by omega)]
      exact decide_eq_false (by omega)
  · simp only [if_neg hs] at hends hnearBest hnearWorst ⊢
    by_cases hbw : b.bestBidIndex = b.worstBidIndex
    · rw [bidAccepts_single hbw, castInt_abs (by rw [abs_lt]; omega)]
      refine decide_eq_false ?_
      rw [abs_le]
      omega
    rcases hends with hlow | hhigh
    · rw [bidAccepts_lower hbw (by omega) (by omega), castInt_of_fits (by omega) (by omega)]
      exact decide_eq_false (by omega)
    · rw [bidAccepts_raise hbw (by omega), castInt_of_fits (by omega) (by omega)]
      exact decide_eq_false (by omega)

theorem ok_priceOp {x : ℤ} (h : |x| < 2 ^ 31) : Traced.Satisfies BookOp.Ok (priceOp x) :=
  Traced.satisfies_record (P := BookOp.Ok) (e := .price x)
    (fits_of_abs_lt (h.trans (by decide))) x

/-- A far distance is dropped at the first guard, before an index is computed. -/
theorem ok_guard_far (b : OrderBook) {x : ℤ} (h : |x| < 2 ^ 31) (hfar : 64 < x)
    (rest : ℤ → Traced BookOp OrderBook) :
    Traced.Satisfies BookOp.Ok (do
      let distance ← priceOp x
      if castInt distance > maxShiftStep then return b else rest distance) := by
  have hmax : maxShiftStep = 64 := rfl
  refine (ok_priceOp h).bind ?_
  change Traced.Satisfies _ (if castInt x > maxShiftStep then pure b else rest x)
  rw [abs_lt] at h
  rw [castInt_of_fits h.1.le h.2, if_pos (by rw [hmax]; exact hfar)]
  exact Traced.satisfies_pure b

theorem ok_tracedAddAsk_far {b : OrderBook} (hcount : b.numOfAsks ≠ 0) {p : ℤ} (q : ℤ)
    (hends : (p < (b.asks b.bestAskIndex).price - 64 ∧ p < (b.asks b.worstAskIndex).price - 64) ∨
      ((b.asks b.bestAskIndex).price + 64 < p ∧ (b.asks b.worstAskIndex).price + 64 < p))
    (hbest : |p - (b.asks b.bestAskIndex).price| < 2 ^ 31)
    (hworst : |p - (b.asks b.worstAskIndex).price| < 2 ^ 31) :
    Traced.Satisfies BookOp.Ok (b.tracedAddAsk p q) := by
  unfold tracedAddAsk
  dsimp only
  rw [if_neg hcount]
  split
  · have hdistance : |(|p - (b.asks b.bestAskIndex).price|)| < 2 ^ 31 := by rwa [abs_abs]
    exact (ok_priceOp hbest).bind (ok_guard_far b hdistance (by rw [lt_abs]; omega) _)
  rw [if_neg (by omega)]
  split
  · exact ok_guard_far b (by rwa [abs_sub_comm]) (by omega) _
  · exact ok_guard_far b hworst (by omega) _

theorem ok_tracedAddBid_far {b : OrderBook} (hcount : b.numOfBids ≠ 0) {p : ℤ} (q : ℤ)
    (hends : (p < (b.bids b.bestBidIndex).price - 64 ∧ p < (b.bids b.worstBidIndex).price - 64) ∨
      ((b.bids b.bestBidIndex).price + 64 < p ∧ (b.bids b.worstBidIndex).price + 64 < p))
    (hbest : |p - (b.bids b.bestBidIndex).price| < 2 ^ 31)
    (hworst : |p - (b.bids b.worstBidIndex).price| < 2 ^ 31) :
    Traced.Satisfies BookOp.Ok (b.tracedAddBid p q) := by
  unfold tracedAddBid
  dsimp only
  rw [if_neg hcount]
  split
  · have hdistance : |(|p - (b.bids b.bestBidIndex).price|)| < 2 ^ 31 := by rwa [abs_abs]
    exact (ok_priceOp hbest).bind (ok_guard_far b hdistance (by rw [lt_abs]; omega) _)
  rw [if_neg (by omega)]
  split
  · exact ok_guard_far b hbest (by omega) _
  · exact ok_guard_far b (by rwa [abs_sub_comm]) (by omega) _

/-- A far add computes no index and no counter, and its distances fit. -/
theorem defined_outside {b : OrderBook} {u : MarketUpdate} (hq : u.quantity ≠ 0)
    (hcount : (b.side u.side).count ≠ 0)
    (hbest : (b.side u.side).Active (b.side u.side).best)
    (hworst : (b.side u.side).Active (b.side u.side).worst)
    (hout : OutsideWindow (b.side u.side) u.price.toInt)
    (hnear : ∀ i, (b.side u.side).Active i →
      |u.price.toInt - ((b.side u.side).levels i).price| < 2 ^ 31) : b.Defined u := by
  have hends := ends_outside hbest hworst hout
  have hnearBest := hnear _ hbest
  have hnearWorst := hnear _ hworst
  obtain ⟨x, y, z, hlatch⟩ := latchExponents_eq b u
  unfold side at hcount hends hnearBest hnearWorst
  unfold Defined tracedUpdate
  dsimp only
  by_cases hs : u.side = .sell
  · simp only [if_pos hs] at hcount hends hnearBest hnearWorst
    rw [if_pos hs, if_neg (quantity_ne_zero hq)]
    rw [hlatch]
    exact ok_tracedAddAsk_far (b := { b with priceExp := x, qtyExp := y, expSet := z }) hcount _
      hends hnearBest hnearWorst
  · simp only [if_neg hs] at hcount hends hnearBest hnearWorst
    rw [if_neg hs, if_neg (quantity_ne_zero hq)]
    rw [hlatch]
    exact ok_tracedAddBid_far (b := { b with priceExp := x, qtyExp := y, expSet := z }) hcount _
      hends hnearBest hnearWorst

/-- To store a price outside the window changes the side. -/
theorem store_outside_ne {S : BookSide} {p : ℤ} (hout : OutsideWindow S p) (i : Fin lobDepth)
    (q : ℤ) (best worst : Fin lobDepth) (count : Int32) : S.store i p q best worst count ≠ S := by
  intro hsame
  have hmax : maxShiftStep = 64 := rfl
  have hslot := congrFun (congrArg BookSide.levels hsame) i
  rw [BookSide.levels_store_self] at hslot
  have hactive : S.Active i := by rw [BookSide.Active, ← hslot]
  rcases hout with hlow | hhigh
  · have hprice := hlow _ hactive
    rw [← hslot] at hprice
    dsimp only at hprice
    omega
  · have hprice := hhigh _ hactive
    rw [← hslot] at hprice
    dsimp only at hprice
    omega

/-- An add outside the window is defined and changes nothing exactly when it is defined, the
counter is not 0 and the guards reject it. They do so, and the add is defined, whenever the
endpoints are levels and no distance leaves the range of `int`; and the counter of a side with
levels is not 0 unless the run has taken one out of its range. -/
theorem add_outside_unchanged_iff {b : OrderBook} {u : MarketUpdate}
    (hq : u.quantity ≠ 0) (hlevel : ∃ i, (b.side u.side).Active i)
    (hout : OutsideWindow (b.side u.side) u.price.toInt) :
    (b.Defined u ∧ (b.addUpdate u).side u.side = b.side u.side ↔
        b.Defined u ∧ (b.side u.side).count ≠ 0 ∧ b.accepts u.side u.price.toInt = false) ∧
      ((b.side u.side).count ≠ 0 → (b.side u.side).Active (b.side u.side).best →
        (b.side u.side).Active (b.side u.side).worst →
        (∀ i, (b.side u.side).Active i →
          |u.price.toInt - ((b.side u.side).levels i).price| < 2 ^ 31) →
        b.Defined u ∧ b.accepts u.side u.price.toInt = false) ∧
      (b.Counted → (b.side u.side).count ≠ 0) := by
  refine ⟨and_congr_right fun _ => ?_, ?_, ?_⟩
  · have hquantity := quantity_ne_zero hq
    have hedit := addUpdate_edit b u
    generalize (b.addUpdate u).side u.side = S at hedit
    cases hedit with
    | first _ hzero => exact iff_of_false (store_outside_ne hout _ _ _ _ _) (fun h => h.1 hzero)
    | dropped _ hcount hreject => exact iff_of_true rfl ⟨hcount, hreject⟩
    | absent hzero _ => exact absurd hzero hquantity
    | removed hzero _ _ _ => exact absurd hzero hquantity
    | stored _ _ haccept _ _ =>
      refine iff_of_false (store_outside_ne hout _ _ _ _ _) (fun h => ?_)
      exact Bool.true_eq_false.mp (haccept.symm.trans h.2)
  · intro hcount hbest hworst hnear
    exact ⟨defined_outside hq hcount hbest hworst hout hnear,
      accepts_outside hbest hworst hout hnear⟩
  · obtain ⟨i, hi⟩ := hlevel
    exact fun hcounted => hcounted.count_ne_zero hi

/-- One ask at 100. -/
def oneAsk : OrderBook := addUpdates {} [.new 0 .sell 100 5 0 0 0]

theorem add_outside_unchanged_iff_five_beyond :
    oneAsk.Defined (.new 0 .sell 169 1 0 0 0) ∧
        (oneAsk.addUpdate (.new 0 .sell 169 1 0 0 0)).side .sell = oneAsk.side .sell ↔
      oneAsk.Defined (.new 0 .sell 169 1 0 0 0) ∧
        (oneAsk.side .sell).count ≠ 0 ∧ oneAsk.accepts .sell 169 = false :=
  (add_outside_unchanged_iff (u := .new 0 .sell 169 1 0 0 0) (by decide)
    ⟨100, by decide +kernel⟩ (by decide +kernel)).1

/-- The distance 2^32 is narrowed to 0: the add replaces the only level. -/
theorem add_outside_replaces_level :
    oneAsk.Reachable ∧ (oneAsk.side .sell).Active 100 ∧
      OutsideWindow (oneAsk.side .sell) (100 + 2 ^ 32) ∧
      (oneAsk.addUpdate (.new 0 .sell (100 + 2 ^ 32) 1 0 0 0)).side .sell ≠ oneAsk.side .sell := by
  refine ⟨⟨_, rfl⟩, by decide +kernel, by decide +kernel, ?_⟩
  intro hsame
  have hslot := congrFun (congrArg BookSide.levels hsame) 100
  revert hslot
  decide +kernel

/-! ### Adds within the window -/

/-- The price is at most the largest step below the lowest and above the highest level. -/
def WithinWindow (S : BookSide) (p : ℤ) : Prop :=
  (∃ i, S.Active i ∧ (S.levels i).price - maxShiftStep ≤ p) ∧
    ∃ i, S.Active i ∧ p ≤ (S.levels i).price + maxShiftStep

instance (S : BookSide) (p : ℤ) : Decidable (WithinWindow S p) :=
  inferInstanceAs (Decidable (_ ∧ _))

/-- The endpoints of the side hold its extreme prices, and its counter is exact. -/
def SideOk (b : OrderBook) (s : Side) : Prop :=
  if s = .sell then SideInvariant (· ≤ ·) b.asks b.bestAskIndex b.worstAskIndex b.numOfAsks
  else SideInvariant (· ≥ ·) b.bids b.bestBidIndex b.worstBidIndex b.numOfBids

/-- With two endpoints, none leaves the array when it moves to the price. -/
def ShiftFits (s : Side) (S : BookSide) (p : ℤ) : Prop :=
  S.best = S.worst ∨
    if s = .sell then
      (S.levels S.best).price - p ≤ S.best.val ∧
        S.worst.val + (p - (S.levels S.worst).price) < lobDepth
    else
      S.best.val + (p - (S.levels S.best).price) < lobDepth ∧
        (S.levels S.worst).price - p ≤ S.worst.val

instance (s : Side) (S : BookSide) (p : ℤ) : Decidable (ShiftFits s S p) :=
  inferInstanceAs (Decidable (_ ∨ _))

theorem askAccepts_within {b : OrderBook} {p : ℤ} (hok : b.SideOk .sell)
    (hpos : 0 < b.numOfAsks.toInt) (hwithin : WithinWindow (b.side .sell) p) :
    b.askAccepts p = true ↔ ShiftFits .sell (b.side .sell) p := by
  obtain ⟨⟨i, hi, hlow⟩, j, hj, hhigh⟩ := hwithin
  have hmax : maxShiftStep = 64 := rfl
  have hdepth : lobDepth = 256 := rfl
  have hindexBest := b.bestAskIndex.isLt
  have hindexWorst := b.worstAskIndex.isLt
  have hbest := hok.best_extreme hpos i hi
  have hworst := hok.worst_extreme hpos j hj
  change (b.asks i).price - maxShiftStep ≤ p at hlow
  change p ≤ (b.asks j).price + maxShiftStep at hhigh
  change b.askAccepts p = true ↔ b.bestAskIndex = b.worstAskIndex ∨
    (b.asks b.bestAskIndex).price - p ≤ b.bestAskIndex.val ∧
      b.worstAskIndex.val + (p - (b.asks b.worstAskIndex).price) < lobDepth
  by_cases hbw : b.bestAskIndex = b.worstAskIndex
  · refine iff_of_true ?_ (Or.inl hbw)
    rw [← hbw] at hworst
    have hstep : |p - (b.asks b.bestAskIndex).price| ≤ 64 := abs_le.mpr (by omega)
    rw [askAccepts_single hbw, castInt_abs (lt_of_le_of_lt hstep (by decide))]
    exact decide_eq_true hstep
  rw [or_iff_right hbw]
  have hends := hok.best_extreme hpos j hj
  by_cases hlower : p < (b.asks b.bestAskIndex).price
  · rw [askAccepts_lower hbw hlower, castInt_of_fits (by omega) (by omega),
      castInt_of_fits (by omega) (by omega), decide_eq_true_iff]
    omega
  by_cases hraise : (b.asks b.worstAskIndex).price < p
  · rw [askAccepts_raise hbw hlower hraise, castInt_of_fits (by omega) (by omega),
      castInt_of_fits (by omega) (by omega), decide_eq_true_iff]
    omega
  · refine iff_of_true ?_ (by omega)
    simp only [askAccepts, if_neg hbw, if_neg hlower, if_neg hraise]

theorem bidAccepts_within {b : OrderBook} {s : Side} (hs : s ≠ .sell) {p : ℤ} (hok : b.SideOk s)
    (hpos : 0 < b.numOfBids.toInt) (hwithin : WithinWindow (b.side s) p) :
    b.bidAccepts p = true ↔ ShiftFits s (b.side s) p := by
  unfold ShiftFits
  unfold SideOk at hok
  unfold side WithinWindow at *
  simp only [if_neg hs] at hok hwithin ⊢
  obtain ⟨⟨i, hi, hlow⟩, j, hj, hhigh⟩ := hwithin
  have hmax : maxShiftStep = 64 := rfl
  have hdepth : lobDepth = 256 := rfl
  have hindexBest := b.bestBidIndex.isLt
  have hindexWorst := b.worstBidIndex.isLt
  have hworst := hok.worst_extreme hpos i hi
  have hbest := hok.best_extreme hpos j hj
  by_cases hbw : b.bestBidIndex = b.worstBidIndex
  · refine iff_of_true ?_ (Or.inl hbw)
    rw [← hbw] at hworst
    have hstep : |p - (b.bids b.bestBidIndex).price| ≤ 64 := abs_le.mpr (by omega)
    rw [bidAccepts_single hbw, castInt_abs (lt_of_le_of_lt hstep (by decide))]
    exact decide_eq_true hstep
  rw [or_iff_right hbw]
  have hends := hok.worst_extreme hpos j hj
  by_cases hraise : p > (b.bids b.bestBidIndex).price
  · rw [bidAccepts_raise hbw hraise, castInt_of_fits (by omega) (by omega),
      castInt_of_fits (by omega) (by omega), decide_eq_true_iff]
    omega
  by_cases hlower : p < (b.bids b.worstBidIndex).price
  · rw [bidAccepts_lower hbw hraise hlower, castInt_of_fits (by omega) (by omega),
      castInt_of_fits (by omega) (by omega), decide_eq_true_iff]
    omega
  · refine iff_of_true ?_ (by omega)
    simp only [bidAccepts, if_neg hbw, if_neg hraise, if_neg hlower]

/-- While the endpoints are right, only the border of the array makes the guards reject a
price within the window. -/
theorem accepts_within {b : OrderBook} {s : Side} {p : ℤ} (hok : b.SideOk s)
    (hpos : 0 < (b.side s).count.toInt) (hwithin : WithinWindow (b.side s) p) :
    b.accepts s p = true ↔ ShiftFits s (b.side s) p := by
  by_cases hs : s = .sell
  · subst hs
    exact askAccepts_within hok hpos hwithin
  · have hcount : (b.side s).count = b.numOfBids := by rw [side, if_neg hs]
    rw [accepts, if_neg hs]
    exact bidAccepts_within hs hok (hcount ▸ hpos) hwithin

/-- An exact counter counts an active level. -/
theorem SideOk.count_pos {b : OrderBook} {s : Side} (hok : b.SideOk s) {i : Fin lobDepth}
    (hi : (b.side s).Active i) : 0 < (b.side s).count.toInt := by
  have hcard : 0 < activeLevels (b.side s).levels := Finset.card_pos.mpr
    ⟨i, Finset.mem_filter.mpr ⟨Finset.mem_univ i, hi⟩⟩
  unfold SideOk at hok
  unfold side at hcard ⊢
  by_cases hs : s = .sell
  · simp only [if_pos hs] at hok hcard ⊢
    rw [hok.counted]
    exact_mod_cast hcard
  · simp only [if_neg hs] at hok hcard ⊢
    rw [hok.counted]
    exact_mod_cast hcard

/-- An add within the window that the guards accept is stored, and becomes the new best if it
is better than the best. In a side with right endpoints it is accepted unless an
endpoint would leave the array, and then the side stays as it is. -/
theorem add_within_stored {b : OrderBook} {u : MarketUpdate}
    (hq : u.quantity ≠ 0) (hwithin : WithinWindow (b.side u.side) u.price.toInt) :
    (b.accepts u.side u.price.toInt = true →
        (∃ i, ((b.addUpdate u).side u.side).levels i =
          ⟨u.price.toInt, u.quantity.toInt, true⟩) ∧
        (Better u.side u.price.toInt ((b.side u.side).levels (b.side u.side).best).price →
          ((b.addUpdate u).side u.side).levels ((b.addUpdate u).side u.side).best =
            ⟨u.price.toInt, u.quantity.toInt, true⟩)) ∧
      (b.SideOk u.side →
        (ShiftFits u.side (b.side u.side) u.price.toInt →
          b.accepts u.side u.price.toInt = true) ∧
        (¬ ShiftFits u.side (b.side u.side) u.price.toInt →
          (b.addUpdate u).side u.side = b.side u.side)) := by
  obtain ⟨⟨i, hi, -⟩, -⟩ := id hwithin
  have hquantity := quantity_ne_zero hq
  have hpos := fun hok : b.SideOk u.side => hok.count_pos hi
  have hfits := fun hok : b.SideOk u.side => accepts_within hok (hpos hok) hwithin
  have hedit := addUpdate_edit b u
  generalize (b.addUpdate u).side u.side = S at hedit
  cases hedit with
  | first _ hzero =>
    refine ⟨fun _ => ⟨⟨_, BookSide.levels_store_self _ _ _ _ _ _ _⟩, fun _ => ?_⟩, fun hok => ?_⟩
    · exact BookSide.levels_store_self _ _ _ _ _ _ _
    · have hcount := hpos hok
      rw [hzero] at hcount
      exact absurd hcount (by decide)
  | absent hzero _ => exact absurd hzero hquantity
  | removed hzero _ _ _ => exact absurd hzero hquantity
  | dropped _ _ hreject =>
    refine ⟨fun haccept => ?_, fun hok => ⟨(hfits hok).mpr, fun _ => rfl⟩⟩
    rw [hreject] at haccept
    contradiction
  | stored _ _ haccept _ hbest =>
    refine ⟨fun _ => ⟨⟨_, BookSide.levels_store_self _ _ _ _ _ _ _⟩, ?_⟩, ?_⟩
    · intro hbetter
      rw [hbest hbetter]
      exact BookSide.levels_store_self _ _ _ _ _ _ _
    · intro hok
      refine ⟨(hfits hok).mpr, fun hnot => ?_⟩
      exact absurd ((hfits hok).mp haccept) hnot

/-- Asks at 256 and 300, in the slots 0 and 44. -/
def askAtBorder : OrderBook :=
  addUpdates {} [.new 0 .sell 256 1 0 0 0, .new 0 .sell 300 1 0 0 0]

theorem add_within_stored_at_border :
    ∃ i, ((askAtBorder.addUpdate (.new 0 .sell 310 7 0 0 0)).side .sell).levels i =
      ⟨310, 7, true⟩ :=
  ((add_within_stored (u := .new 0 .sell 310 7 0 0 0) (by decide)
    (by decide +kernel)).1 (by decide +kernel)).1

/-- The levels and the price together span less than `lobDepth` ticks. -/
def SpanFits (S : BookSide) (p : ℤ) : Prop :=
  ∃ low, (low ≤ p ∧ p < low + lobDepth) ∧
    ∀ i, S.Active i → low ≤ (S.levels i).price ∧ (S.levels i).price < low + lobDepth

/-- An ask at 250 is 6 ticks below the best ask and 50 ticks below the worst, but the best
index is 0: it is dropped. -/
theorem add_within_dropped_at_border :
    askAtBorder.Reachable ∧ WithinWindow (askAtBorder.side .sell) 250 ∧
      SpanFits (askAtBorder.side .sell) 250 ∧
      ¬ ∃ i, ((askAtBorder.addUpdate (.new 0 .sell 250 1 0 0 0)).side .sell).levels i =
        ⟨250, 1, true⟩ :=
  ⟨⟨_, rfl⟩, by decide +kernel, ⟨250, by decide, by decide +kernel⟩, by decide +kernel⟩

/-! ### Removals -/

/-- A removal at the price does nothing else than to remove the level of that price. -/
structure RemovesOnly (p : ℤ) (S S' : BookSide) : Prop where
  absent : (∀ i, S.Active i → (S.levels i).price ≠ p) → S' = S
  present : ∀ i, S.Active i → (S.levels i).price = p →
    ¬ S'.Active i ∧ S'.count.toInt + 1 = S.count.toInt ∧
      ∀ j ≠ i, S.Active j → S'.levels j = S.levels j

/-- The slot of the price holds no other price, and a level of the price is in that slot of a
side whose counter is not 0. -/
def NamesLevel (b : OrderBook) (s : Side) (p : ℤ) : Prop :=
  ((b.side s).count ≠ 0 → (b.side s).Active (b.slotOf s p) →
      ((b.side s).levels (b.slotOf s p)).price = p) ∧
    ∀ i, (b.side s).Active i → ((b.side s).levels i).price = p →
      (b.side s).count ≠ 0 ∧ b.slotOf s p = i

instance (b : OrderBook) (s : Side) (p : ℤ) : Decidable (b.NamesLevel s p) :=
  inferInstanceAs (Decidable (_ ∧ _))

/-- As long as the counters fit, lookup finds a level of the price if there is one. -/
theorem Counted.namesLevel_iff {b : OrderBook} (h : b.Counted) (s : Side) (p : ℤ) :
    b.NamesLevel s p ↔
      ((b.side s).Active (b.slotOf s p) → ((b.side s).levels (b.slotOf s p)).price = p) := by
  constructor
  · exact fun hnames hactive => hnames.1 (h.count_ne_zero hactive) hactive
  · intro hslot
    refine ⟨fun _ => hslot, fun i hi hprice => ⟨h.count_ne_zero hi, ?_⟩⟩
    rw [← hprice]
    exact (h.lookupSound s).lookup i hi

theorem toInt_sub_one {counter : Int32} (hfits : Fits 32 (counter.toInt - 1)) :
    (counter - 1).toInt + 1 = counter.toInt := by
  have hsub : (counter - 1).toInt = (counter.toInt - 1).bmod (2 ^ 32) := Int32.toInt_sub _ _
  have hlow : -2 ^ 31 ≤ counter.toInt - 1 := hfits.1
  have hhigh : counter.toInt - 1 < 2 ^ 31 := hfits.2
  rw [hsub, Int.bmod_eq_of_le (by omega) (by omega)]
  omega

/-- A defined removal of an active slot has room below its counter. -/
theorem Defined.countDown {b : OrderBook} {u : MarketUpdate} (h : b.Defined u)
    (hq : u.quantity.toInt = 0) (hcount : (b.side u.side).count ≠ 0)
    (hactive : (b.side u.side).Active (b.slotOf u.side u.price.toInt)) :
    Fits 32 ((b.side u.side).count.toInt - 1) := by
  obtain ⟨x, y, z, hlatch⟩ := latchExponents_eq b u
  unfold Defined tracedUpdate at h
  unfold side at hcount hactive ⊢
  unfold slotOf at hactive
  dsimp only at h
  by_cases hs : u.side = .sell
  · simp only [hs, if_true, ne_eq, not_true_eq_false, decide_false] at hcount hactive ⊢
    rw [if_pos hs, if_pos hq, hlatch] at h
    exact fits_countDown_asks (b := { b with priceExp := x, qtyExp := y, expSet := z }) h hcount
      hactive
  · simp only [ne_eq, hs, not_false_eq_true, decide_true, if_false] at hcount hactive ⊢
    rw [if_neg hs, if_pos hq, hlatch] at h
    exact fits_countDown_bids (b := { b with priceExp := x, qtyExp := y, expSet := z }) h hcount
      hactive

/-- A removal is defined and removes only what it names exactly when it is defined and its price
names a level or none. As long as the counters fit, the latter says that the slot of the price is
free or holds that price. -/
theorem removal_names_iff {b : OrderBook} {u : MarketUpdate} (hq : u.quantity = 0) :
    (b.Defined u ∧ RemovesOnly u.price.toInt (b.side u.side) ((b.addUpdate u).side u.side) ↔
        b.Defined u ∧ b.NamesLevel u.side u.price.toInt) ∧
      (b.Counted → (b.NamesLevel u.side u.price.toInt ↔
        ((b.side u.side).Active (b.slotOf u.side u.price.toInt) →
          ((b.side u.side).levels (b.slotOf u.side u.price.toInt)).price = u.price.toInt))) := by
  refine ⟨and_congr_right fun hdef => ?_, fun hcounted => hcounted.namesLevel_iff _ _⟩
  have hquantity : u.quantity.toInt = 0 := by rw [hq]; rfl
  have hdown := hdef.countDown hquantity
  have hedit := addUpdate_edit b u
  generalize (b.addUpdate u).side u.side = S at hedit
  cases hedit with
  | first hne _ => exact absurd hquantity hne
  | dropped hne _ _ => exact absurd hquantity hne
  | stored hne _ _ _ _ => exact absurd hquantity hne
  | absent _ hfree =>
    constructor
    · intro hremoves
      refine ⟨fun hcount hactive => absurd hactive (hfree.resolve_left hcount), ?_⟩
      intro i hi hprice
      exact absurd hi (hremoves.present i hi hprice).1
    · intro hnames
      refine ⟨fun _ => rfl, fun i hi hprice => ?_⟩
      obtain ⟨hcount, rfl⟩ := hnames.2 i hi hprice
      exact absurd hi (hfree.resolve_left hcount)
  | removed _ hcount hactive _ =>
    constructor
    · intro hremoves
      have hpresent : ∀ i, (b.side u.side).Active i →
          ((b.side u.side).levels i).price = u.price.toInt → b.slotOf u.side u.price.toInt = i := by
        intro i hi hprice
        by_contra hother
        have hinactive := (hremoves.present i hi hprice).1
        rw [BookSide.Active, BookSide.levels_clear_of_ne _ _ _ _ (Ne.symm hother)] at hinactive
        exact hinactive hi
      refine ⟨fun _ _ => ?_, fun i hi hprice => ⟨hcount, hpresent i hi hprice⟩⟩
      by_contra hother
      have hsame := hremoves.absent (fun i hi hprice => by
        rw [← hpresent i hi hprice] at hprice
        exact hother hprice)
      have hslot := congrFun (congrArg BookSide.levels hsame) (b.slotOf u.side u.price.toInt)
      rw [BookSide.levels_clear_self] at hslot
      rw [BookSide.Active, ← hslot] at hactive
      exact absurd hactive Bool.false_ne_true
    · intro hnames
      refine ⟨fun hnone => absurd (hnames.1 hcount hactive) (hnone _ hactive), ?_⟩
      intro i hi hprice
      obtain ⟨-, rfl⟩ := hnames.2 i hi hprice
      refine ⟨?_, toInt_sub_one (hdown hcount hactive), ?_⟩
      · rw [BookSide.Active, BookSide.levels_clear_self]
        exact Bool.false_ne_true
      · intro j hj _
        exact BookSide.levels_clear_of_ne _ _ _ _ hj

theorem removal_names_iff_one_ask :
    oneAsk.Defined (.new 0 .sell 100 0 0 0 0) ∧ RemovesOnly 100 (oneAsk.side .sell)
      ((oneAsk.addUpdate (.new 0 .sell 100 0 0 0 0)).side .sell) :=
  (removal_names_iff (u := .new 0 .sell 100 0 0 0 0) rfl).1.mpr
    ⟨by decide +kernel, by decide +kernel⟩

/-- The removal of 356, a price without a level, removes the level at 100. -/
theorem removal_takes_other_level :
    oneAsk.Reachable ∧ ¬ RemovesOnly 356 (oneAsk.side .sell)
      ((oneAsk.addUpdate (.new 0 .sell 356 0 0 0 0)).side .sell) := by
  refine ⟨⟨_, rfl⟩, ?_⟩
  intro hremoves
  have hsame := hremoves.absent (by decide +kernel)
  have hcount := congrArg BookSide.count hsame
  revert hcount
  decide +kernel

/-! ### Emptied sides -/

/-- The slot in which an update is stored, if it is. -/
def target (b : OrderBook) (u : MarketUpdate) : Option (Fin lobDepth) :=
  if u.quantity.toInt = 0 then none
  else if (b.side u.side).count = 0 then some (firstIndex u.price.toInt)
  else if b.accepts u.side u.price.toInt then some (b.slotOf u.side u.price.toInt)
  else none

/-- The price of the last update of a run that is stored in the slot of the side. -/
def lastPriceIn (s : Side) (i : Fin lobDepth) : OrderBook → List MarketUpdate → Option ℤ
  | _, [] => none
  | b, u :: us =>
    match lastPriceIn s i (b.addUpdate u) us with
    | some p => some p
    | none =>
      if (s = .sell ↔ u.side = .sell) ∧ b.target u = some i then some u.price.toInt else none

theorem side_congr (b : OrderBook) {s t : Side} (h : s = .sell ↔ t = .sell) :
    b.side s = b.side t := by
  unfold side
  exact if_congr h rfl rfl

/-- The price in a slot is that of the update, if it is stored there, and else stays. -/
theorem addUpdate_price (b : OrderBook) (u : MarketUpdate) (s : Side) (i : Fin lobDepth) :
    (((b.addUpdate u).side s).levels i).price =
      if (s = .sell ↔ u.side = .sell) ∧ b.target u = some i then u.price.toInt
      else ((b.side s).levels i).price := by
  by_cases hs : s = .sell ↔ u.side = .sell
  · rw [side_congr _ hs, side_congr _ hs]
    simp only [hs, true_and]
    have hedit := addUpdate_edit b u
    unfold target
    generalize (b.addUpdate u).side u.side = S at hedit
    cases hedit with
    | first hq hzero =>
      rw [if_neg hq, if_pos hzero]
      by_cases hi : i = firstIndex u.price.toInt
      · subst hi
        simp
      · rw [BookSide.levels_store_of_ne _ _ _ _ _ _ _ hi, if_neg (by simpa using Ne.symm hi)]
    | dropped hq hcount hreject =>
      rw [if_neg hq, if_neg hcount, hreject]
      rfl
    | stored hq hcount haccept _ _ =>
      rw [if_neg hq, if_neg hcount, haccept, if_pos rfl]
      by_cases hi : i = b.slotOf u.side u.price.toInt
      · subst hi
        simp
      · rw [BookSide.levels_store_of_ne _ _ _ _ _ _ _ hi, if_neg (by simpa using Ne.symm hi)]
    | absent hq _ =>
      rw [if_pos hq]
      rfl
    | removed hq _ _ _ =>
      rw [if_pos hq, if_neg (by simp)]
      by_cases hi : i = b.slotOf u.side u.price.toInt
      · subst hi
        simp
      · rw [BookSide.levels_clear_of_ne _ _ _ _ hi]
  · rw [addUpdate_otherSide b u hs, if_neg (fun h => hs h.1)]

theorem addUpdates_price (b : OrderBook) (us : List MarketUpdate) (s : Side) (i : Fin lobDepth) :
    (((b.addUpdates us).side s).levels i).price =
      (lastPriceIn s i b us).getD ((b.side s).levels i).price := by
  induction us generalizing b with
  | nil => rfl
  | cons u us ih =>
    rw [addUpdates_cons, ih, lastPriceIn]
    cases lastPriceIn s i (b.addUpdate u) us with
    | some p => rfl
    | none =>
      rw [Option.getD_none, addUpdate_price]
      split
      · rfl
      · rfl

/-- Free slots have no quantity. -/
def Blank (S : BookSide) : Prop := ∀ i, ¬ S.Active i → (S.levels i).quantity = 0

theorem Blank.store {S : BookSide} (h : Blank S) (i : Fin lobDepth) (p q : ℤ)
    (best worst : Fin lobDepth) (count : Int32) : Blank (S.store i p q best worst count) := by
  intro j hj
  by_cases hji : j = i
  · subst hji
    rw [BookSide.Active, BookSide.levels_store_self] at hj
    exact absurd rfl hj
  · rw [BookSide.Active, BookSide.levels_store_of_ne _ _ _ _ _ _ _ hji] at hj
    rw [BookSide.levels_store_of_ne _ _ _ _ _ _ _ hji]
    exact h j hj

theorem Blank.clear {S : BookSide} (h : Blank S) (i best worst : Fin lobDepth) :
    Blank (S.clear i best worst) := by
  intro j hj
  by_cases hji : j = i
  · subst hji
    rw [BookSide.levels_clear_self]
  · rw [BookSide.Active, BookSide.levels_clear_of_ne _ _ _ _ hji] at hj
    rw [BookSide.levels_clear_of_ne _ _ _ _ hji]
    exact h j hj

theorem addUpdate_blank (b : OrderBook) (u : MarketUpdate) (h : ∀ s, Blank (b.side s)) (s : Side) :
    Blank ((b.addUpdate u).side s) := by
  by_cases hs : s = .sell ↔ u.side = .sell
  · rw [side_congr _ hs]
    have hside := h u.side
    have hedit := addUpdate_edit b u
    generalize (b.addUpdate u).side u.side = S at hedit
    cases hedit with
    | first _ _ => exact hside.store _ _ _ _ _ _
    | dropped _ _ _ => exact hside
    | stored _ _ _ _ _ => exact hside.store _ _ _ _ _ _
    | absent _ _ => exact hside
    | removed _ _ _ _ => exact hside.clear _ _ _
  · rw [addUpdate_otherSide b u hs]
    exact h s

theorem addUpdates_blank (us : List MarketUpdate) (s : Side) : Blank ((addUpdates {} us).side s) :=
  foldl_preserves (P := fun b : OrderBook => ∀ s, Blank (b.side s)) addUpdate_blank
    (fun s _ _ => by unfold side; split <;> rfl) us s

/-- A counter that is not negative does not count up to 0. -/
theorem add_one_ne_zero {counter : Int32} (h : word counter < 2 ^ 31) : counter + 1 ≠ 0 := by
  intro hzero
  have hroom : word counter + 1 < wordSize := (Nat.succ_le_of_lt h).trans_lt (by decide)
  have hword := (word_eq_zero_iff _).mpr hzero
  rw [word_add_one, Window.bump_of_lt hroom] at hword
  omega

/-- Slot 0 is the best slot of an empty side. -/
def Rested (S : BookSide) : Prop := S.count = 0 → S.best = 0

theorem addUpdate_rested (b : OrderBook) (u : MarketUpdate) (hsound : Sound (b.window u.side))
    (h : ∀ s, Rested (b.side s)) (s : Side) : Rested ((b.addUpdate u).side s) := by
  have hrange := hsound.range
  rw [window_count] at hrange
  by_cases hs : s = .sell ↔ u.side = .sell
  · rw [side_congr _ hs]
    have hside := h u.side
    have hedit := addUpdate_edit b u
    generalize (b.addUpdate u).side u.side = S at hedit
    cases hedit with
    | first _ _ => exact fun hone : (1 : Int32) = 0 => absurd hone (by decide)
    | dropped _ _ _ => exact hside
    | stored _ hcount _ hmove _ =>
      rcases hmove with rfl | rfl
      · exact fun hzero => absurd hzero hcount
      · exact fun hzero => absurd hzero (add_one_ne_zero hrange)
    | absent _ _ => exact hside
    | removed _ _ _ hlast =>
      intro hzero
      refine hlast ?_
      change (b.side u.side).count - 1 = 0 at hzero
      rw [← Int32.sub_add_cancel (b.side u.side).count 1, hzero]
      rfl
  · rw [addUpdate_otherSide b u hs]
    exact h s

theorem addUpdates_rested {us : List MarketUpdate} (hfits : StepsMeet addUpdate CounterFits {} us)
    (s : Side) : Rested ((addUpdates {} us).side s) := by
  have hfresh : ∀ s, Rested (({} : OrderBook).side s) := by
    intro s _
    unfold side
    split
    · rfl
    · rfl
  have hrun := foldl_invariant
    (P := fun b => (Sound b.askWindow ∧ Sound (b.bidWindow 0)) ∧ ∀ s, Rested (b.side s))
    (fun b u hstep h => ⟨addUpdate_sound b u hstep h.1, addUpdate_rested b u (.side h.1 _) h.2⟩)
    ⟨⟨.of_empty fresh_askWindow_empty, .of_empty (fresh_bidWindow_empty 0)⟩, hfresh⟩ hfits
    (List.prefix_refl us)
  exact hrun.2 s

/-- The best level of an empty side is the one in slot 0. -/
theorem empty_side_best {us : List MarketUpdate} (hfits : StepsMeet addUpdate CounterFits {} us)
    (s : Side) (hzero : ((addUpdates {} us).side s).count = 0) :
    ((addUpdates {} us).side s).levels ((addUpdates {} us).side s).best =
      ⟨(lastPriceIn s 0 {} us).getD 0, 0, false⟩ := by
  have hcounted : (addUpdates {} us).Counted := ⟨us, hfits, rfl⟩
  have hprice := addUpdates_price {} us s 0
  have hinactive := (hcounted.lookupSound s).empty hzero 0
  have hquantity := addUpdates_blank us s 0 (by
    rw [BookSide.Active, hinactive]
    exact Bool.false_ne_true)
  have hfresh : ((({} : OrderBook).side s).levels 0).price = 0 := by
    unfold side
    split
    · rfl
    · rfl
  rw [hfresh] at hprice
  rw [addUpdates_rested hfits s hzero]
  generalize (({} : OrderBook).addUpdates us).side s = S at hprice hquantity hinactive
  rcases hlevel : S.levels 0 with ⟨price, quantity, isActive⟩
  rw [hlevel] at hprice hquantity hinactive
  dsimp only at hprice hquantity hinactive
  rw [hprice, hquantity, hinactive]

/-- After a defined run an emptied side looks like a fresh one exactly when the last level stored
in its slot 0, if there was one, had the price 0. -/
theorem emptied_like_fresh_iff (us : List MarketUpdate)
    (hdef : StepsMeet addUpdate Defined {} us) :
    ((addUpdates {} us).numOfAsks = 0 →
        ((addUpdates {} us).getBestAskRaw = 0 ∧ (addUpdates {} us).getBestAskQtyRaw = 0 ↔
          ∀ p, lastPriceIn .sell 0 {} us = some p → p = 0)) ∧
      ((addUpdates {} us).numOfBids = 0 →
        ((addUpdates {} us).getBestBidRaw = 0 ∧ (addUpdates {} us).getBestBidQtyRaw = 0 ↔
          ∀ p, lastPriceIn .buy 0 {} us = some p → p = 0)) := by
  have hfits : StepsMeet addUpdate CounterFits {} us := hdef.mono fun _ _ h => h.counterFits
  have hgetD : ∀ o : Option ℤ, (o.getD 0 = 0 ∧ (0 : ℤ) = 0) ↔ ∀ p, o = some p → p = 0 := by
    intro o
    cases o with
    | none => simp
    | some p => simp
  constructor
  · intro hzero
    have hbest := empty_side_best hfits .sell hzero
    change (addUpdates {} us).asks (addUpdates {} us).bestAskIndex = _ at hbest
    rw [getBestAskRaw, getBestAskQtyRaw, hbest]
    exact hgetD _
  · intro hzero
    have hbest := empty_side_best hfits .buy hzero
    change (addUpdates {} us).bids (addUpdates {} us).bestBidIndex = _ at hbest
    rw [getBestBidRaw, getBestBidQtyRaw, hbest]
    exact hgetD _

/-- The ask at 300 uses slot 44, so slot 0 still has the price 0 after its removal. -/
theorem emptied_like_fresh_iff_other_slot :
    (addUpdates {} [.new 0 .sell 300 1 0 0 0, .new 0 .sell 300 0 0 0 0]).getBestAskRaw = 0 ∧
      (addUpdates {} [.new 0 .sell 300 1 0 0 0, .new 0 .sell 300 0 0 0 0]).getBestAskQtyRaw = 0 :=
  ((emptied_like_fresh_iff [.new 0 .sell 300 1 0 0 0, .new 0 .sell 300 0 0 0 0]
    (by decide +kernel)).1 (by decide +kernel)).mpr (by decide +kernel)

/-- An ask at 256 uses slot 0; after its removal the best ask still shows 256. -/
theorem emptied_shows_old_price :
    (addUpdates {} [.new 0 .sell 256 1 0 0 0, .new 0 .sell 256 0 0 0 0]).numOfAsks = 0 ∧
      (addUpdates {} [.new 0 .sell 256 1 0 0 0, .new 0 .sell 256 0 0 0 0]).getBestAskRaw = 256 := by
  decide +kernel

end HftSystem.OrderBook
