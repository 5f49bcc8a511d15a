import HftSystem.OrderBook
import HftSystem.TightWindow

/-!
Each side of the order book as a circular window. The ask window has the
prices themselves as keys. The bid window is read backwards: slot i is bid slot
255 - i and a price p has the key c - p for a constant c, so that the highest
bid has the least key. With this reading both halves of `addUpdate` are the
insertion and the removal of one window type; they differ in the slot of the
first level and in the guards on steps beyond the endpoints.
-/
namespace HftSystem.OrderBook

open TwosComplement CircularWindow

theorem castInt_of_fits {x : ℤ} (hlow : -2 ^ 31 ≤ x) (hhigh : x < 2 ^ 31) : castInt x = x :=
  truncate_of_fits (by decide) ⟨hlow, hhigh⟩

theorem castInt_abs {x : ℤ} (h : |x| < 2 ^ 31) : castInt |x| = |x| :=
  castInt_of_fits (le_trans (by decide) (abs_nonneg x)) h

theorem wrapIndex_eq_residue (raw : ℤ) : wrapIndex raw = residue lobDepth raw := by
  have hlow : -(lobDepth : ℤ) < raw.tmod lobDepth := Int.lt_tmod_of_pos raw (by decide)
  have hemod : (raw.tmod lobDepth + lobDepth).tmod lobDepth = raw % lobDepth := by
    rw [Int.tmod_eq_emod_of_nonneg (by omega), Int.tmod_eq_emod]
    split
    · simp
    · simp
  apply Fin.ext
  simp only [wrapIndex, residue, hemod]

/-! ### The counters -/

/-- The number of values of a 32-bit word. -/
abbrev wordSize : ℕ := 2 ^ 32

/-- A counter as a number modulo `wordSize`. -/
def word (counter : Int32) : ℕ := counter.toBitVec.toNat

theorem word_add_one (counter : Int32) : word (counter + 1) = Window.bump wordSize (word counter) :=
  BitVec.toNat_add _ _

theorem word_eq_zero_iff (counter : Int32) : word counter = 0 ↔ counter = 0 := by
  rw [word, ← Int32.toBitVec_inj, ← BitVec.toNat_inj]
  rfl

theorem word_sub_one {counter : Int32} (hne : counter ≠ 0) :
    word (counter - 1) = word counter - 1 := by
  have hlt : word counter < wordSize := counter.toBitVec.isLt
  have hpos : word counter ≠ 0 := mt (word_eq_zero_iff counter).mp hne
  have hsub : word (counter - 1) = (wordSize - 1 + word counter) % wordSize :=
    BitVec.toNat_sub _ _
  have hsize : 0 < wordSize := by decide
  have hround : wordSize - 1 + word counter = word counter - 1 + wordSize := by omega
  rw [hsub, hround, Nat.add_mod_right]
  exact Nat.mod_eq_of_lt (by omega)

theorem ofNat_word (counter : Int32) : Int32.ofNat (word counter) = counter := by
  apply Int32.toBitVec_inj.mp
  exact BitVec.ofNat_toNat _ _

theorem toInt_of_word_lt {counter : Int32} (h : word counter < 2 ^ 31) :
    counter.toInt = word counter :=
  BitVec.toInt_eq_toNat_of_lt (by unfold word at h; omega)

theorem word_lt_of_nonneg {counter : Int32} (h : 0 ≤ counter.toInt) : word counter < 2 ^ 31 := by
  have hnot : ¬ 2 ^ 32 ≤ 2 * counter.toBitVec.toNat := by
    intro hle
    have hneg := BitVec.toInt_neg_iff.mpr hle
    change counter.toInt < 0 at hneg
    omega
  unfold word
  omega

def askWindow (b : OrderBook) : Window lobDepth ℤ where
  slot i := ⟨(b.asks i).price, (b.asks i).quantity, (b.asks i).isActive⟩
  best := b.bestAskIndex
  worst := b.worstAskIndex
  count := word b.numOfAsks

def bidWindow (c : ℤ) (b : OrderBook) : Window lobDepth ℤ where
  slot i := ⟨c - (b.bids i.rev).price, (b.bids i.rev).quantity, (b.bids i.rev).isActive⟩
  best := b.bestBidIndex.rev
  worst := b.worstBidIndex.rev
  count := word b.numOfBids

/-! ### Candidates of the re-scan loops -/

theorem slotAfter_eq_above (i : Fin lobDepth) (d : ℕ) : slotAfter i d = Window.above i d := by
  symm
  rw [Window.above_eq_iff]
  simp [slotAfter, Int.ModEq]

theorem slotBefore_eq_below (i : Fin lobDepth) {d : ℕ} (hd : d < lobDepth) :
    slotBefore i d = Window.below i d := by
  symm
  rw [Window.below_eq_iff]
  have hcast : ((i.val + lobDepth - d : ℕ) : ℤ) = i.val - d + lobDepth := by omega
  simp only [slotBefore, Int.ModEq, Int.natCast_emod, Int.emod_emod, hcast,
    Int.add_emod_right]

/-! ### Asks -/

section Asks

variable (b : OrderBook) (p q : ℤ)

theorem askWindow_best : b.askWindow.best = b.bestAskIndex := rfl

theorem askWindow_worst : b.askWindow.worst = b.worstAskIndex := rfl

theorem askWindow_count : b.askWindow.count = word b.numOfAsks := rfl

theorem askWindow_isActive (i : Fin lobDepth) :
    (b.askWindow.slot i).active = (b.asks i).isActive := rfl

theorem askWindow_indexOf : b.askWindow.indexOf p = b.priceToIndex p false := by
  simp [priceToIndex, wrapIndex_eq_residue, Window.indexOf, Window.key, askWindow, tickUnits]

theorem askWindow_update (i : Fin lobDepth) (l : PriceLevel) (best worst : Fin lobDepth)
    (count : Int32) :
    { b with asks := Function.update b.asks i l, bestAskIndex := best, worstAskIndex := worst,
             numOfAsks := count : OrderBook }.askWindow =
      ⟨Function.update b.askWindow.slot i ⟨l.price, l.quantity, l.isActive⟩, best, worst,
        word count⟩ := by
  have hslot := Function.comp_update
    (fun l : PriceLevel => (⟨l.price, l.quantity, l.isActive⟩ : Level ℤ)) b.asks i l
  simp only [askWindow, Window.mk.injEq, and_true]
  exact hslot

theorem askWindow_update_key (i j : Fin lobDepth) (l : PriceLevel) :
    (Function.update b.askWindow.slot i ⟨l.price, l.quantity, l.isActive⟩ j).key =
      (Function.update b.asks i l j).price := by
  by_cases hji : j = i
  · subst hji
    simp
  · simp [Function.update_of_ne hji, askWindow]

/-- The guards of the ask code on an add to a non-empty side. -/
def askAccepts : Bool :=
  let bestPrice := (b.asks b.bestAskIndex).price
  let worstPrice := (b.asks b.worstAskIndex).price
  if b.bestAskIndex = b.worstAskIndex then castInt |p - bestPrice| ≤ maxShiftStep
  else if p < bestPrice then
    castInt (bestPrice - p) ≤ maxShiftStep ∧
      0 ≤ castInt (b.bestAskIndex.val - castInt (bestPrice - p))
  else if worstPrice < p then
    castInt (p - worstPrice) ≤ maxShiftStep ∧
      castInt (b.worstAskIndex.val + castInt (p - worstPrice)) < lobDepth
  else true

variable {b p}

theorem askAccepts_single (hbw : b.bestAskIndex = b.worstAskIndex) :
    b.askAccepts p = decide (castInt |p - (b.asks b.bestAskIndex).price| ≤ maxShiftStep) := by
  simp only [askAccepts, if_pos hbw]

theorem askAccepts_lower (hbw : b.bestAskIndex ≠ b.worstAskIndex)
    (hlow : p < (b.asks b.bestAskIndex).price) :
    b.askAccepts p = decide (castInt ((b.asks b.bestAskIndex).price - p) ≤ maxShiftStep ∧
      0 ≤ castInt (b.bestAskIndex.val - castInt ((b.asks b.bestAskIndex).price - p))) := by
  simp only [askAccepts, if_neg hbw, if_pos hlow]

theorem askAccepts_raise (hbw : b.bestAskIndex ≠ b.worstAskIndex)
    (hlow : ¬ p < (b.asks b.bestAskIndex).price) (hhigh : (b.asks b.worstAskIndex).price < p) :
    b.askAccepts p = decide (castInt (p - (b.asks b.worstAskIndex).price) ≤ maxShiftStep ∧
      castInt (b.worstAskIndex.val + castInt (p - (b.asks b.worstAskIndex).price)) <
        lobDepth) := by
  simp only [askAccepts, if_neg hbw, if_neg hlow, if_pos hhigh]

variable (b p)

theorem addAsk_window :
    (b.addAsk p q).askWindow =
      b.askWindow.insert wordSize (b.askAccepts p) (firstIndex p) p q := by
  have hkeyBest : b.askWindow.key b.askWindow.best = (b.asks b.bestAskIndex).price := rfl
  have hkeyWorst : b.askWindow.key b.askWindow.worst = (b.asks b.worstAskIndex).price := rfl
  unfold addAsk Window.insert
  rw [hkeyBest, hkeyWorst, askWindow_best, askWindow_worst, askWindow_count, askWindow_indexOf]
  simp only [word_eq_zero_iff]
  split
  · rw [askWindow_update, word_add_one]
    rfl
  split
  · rename_i hbw
    rw [askAccepts_single hbw]
    by_cases hstep : castInt |p - (b.asks b.bestAskIndex).price| ≤ maxShiftStep
    · rw [if_neg (not_lt.mpr hstep), decide_eq_true hstep, askWindow_update]
      have hends : ∀ x y : Fin lobDepth,
          (if p > (b.asks b.bestAskIndex).price then y
            else if p < (b.asks b.bestAskIndex).price then x else y) =
          if p < (b.asks b.bestAskIndex).price then x else y := by
        intro x y
        split <;> split <;> first | rfl | omega
      simp only [Window.insertSingle, askWindow_indexOf, if_true, askWindow_best, askWindow_worst,
        askWindow_count, hends, gt_iff_lt, askWindow_update_key b _ _ ⟨p, q, true⟩,
        apply_ite word, word_add_one]
      rfl
    · rw [if_pos (not_le.mp hstep), decide_eq_false hstep]
      rfl
  rename_i hbw
  split
  · rename_i hin
    rw [askWindow_update, askWindow_isActive]
    cases (b.asks (b.priceToIndex p false)).isActive <;> rfl
  rename_i hout
  split
  · rename_i hlow
    rw [askAccepts_lower hbw hlow]
    split
    · rename_i hstep
      rw [decide_eq_false (by omega)]
      rfl
    · rename_i hstep
      rw [decide_eq_true (by omega), askWindow_update]
      rfl
  · rename_i hlow
    rw [askAccepts_raise hbw hlow (by omega)]
    split
    · rename_i hstep
      rw [decide_eq_false (by omega)]
      rfl
    · rename_i hstep
      rw [decide_eq_true (by omega), askWindow_update]
      rfl

theorem rescan_asks_after (i : Fin lobDepth) :
    rescan b.asks (slotAfter i) = b.askWindow.scan (Window.above i) :=
  Window.scan_congr b.askWindow (fun d _ _ => slotAfter_eq_above i d)

theorem rescan_asks_before (i : Fin lobDepth) :
    rescan b.asks (slotBefore i) = b.askWindow.scan (Window.below i) :=
  Window.scan_congr b.askWindow (fun _ _ hd => slotBefore_eq_below i hd)

theorem removeAsk_window : (b.removeAsk p).askWindow = b.askWindow.remove 0 p := by
  unfold removeAsk Window.remove
  rw [askWindow_indexOf, askWindow_isActive, askWindow_count]
  generalize b.priceToIndex p false = i
  dsimp only
  by_cases hzero : b.numOfAsks = 0
  · rw [if_pos hzero, if_pos ((word_eq_zero_iff _).mpr hzero)]
  rw [if_neg hzero, if_neg (mt (word_eq_zero_iff _).mp hzero)]
  cases hact : (b.asks i).isActive with
  | false => rfl
  | true =>
    rw [if_neg (by decide), if_pos rfl]
    let b' : OrderBook :=
      { b with
        asks := Function.update b.asks i { b.asks i with isActive := false, quantity := 0 },
        numOfAsks := b.numOfAsks - 1 }
    have hclear : b'.askWindow = b.askWindow.clear i := by
      refine (askWindow_update b i _ _ _ _).trans ?_
      rw [word_sub_one hzero]
      rfl
    unfold Window.erase
    simp only [← hclear]
    rw [← rescan_asks_after, ← rescan_asks_before]
    have hcount' : b'.askWindow.count = word (b.numOfAsks - 1) := rfl
    rw [hcount', askWindow_best b, askWindow_worst b]
    simp only [word_eq_zero_iff]
    split
    · rfl
    split
    · rfl
    split
    · rfl
    · rfl

end Asks

/-! ### Bids -/

section Bids

variable (c : ℤ) (b : OrderBook) (p q : ℤ)

theorem val_rev (i : Fin lobDepth) : (i.rev.val : ℤ) = lobDepth - 1 - i.val := by
  rw [Fin.val_rev]
  omega

theorem residue_rev (z : ℤ) : residue lobDepth (lobDepth - 1 - z) = (residue lobDepth z).rev := by
  rw [residue_eq_iff, val_rev]
  exact (modEq_residue z).sub_left _

theorem bidWindow_best : (b.bidWindow c).best = b.bestBidIndex.rev := rfl

theorem bidWindow_worst : (b.bidWindow c).worst = b.worstBidIndex.rev := rfl

theorem bidWindow_count : (b.bidWindow c).count = word b.numOfBids := rfl

theorem bidWindow_isActive (i : Fin lobDepth) :
    ((b.bidWindow c).slot i.rev).active = (b.bids i).isActive := by
  simp [bidWindow]

theorem bidWindow_indexOf :
    (b.bidWindow c).indexOf (c - p) = (b.priceToIndex p true).rev := by
  simp only [priceToIndex, wrapIndex_eq_residue, Window.indexOf, Window.key, bidWindow, tickUnits,
    if_true, Int.tdiv_one, Fin.rev_rev, ← residue_rev, val_rev]
  congr 1
  omega

theorem bidWindow_update_slot (i : Fin lobDepth) (l : PriceLevel) :
    (fun j : Fin lobDepth => (⟨c - (Function.update b.bids i l j.rev).price,
        (Function.update b.bids i l j.rev).quantity,
        (Function.update b.bids i l j.rev).isActive⟩ : Level ℤ)) =
      Function.update (b.bidWindow c).slot i.rev ⟨c - l.price, l.quantity, l.isActive⟩ := by
  funext j
  by_cases hji : j = i.rev
  · subst hji
    simp
  · have hrev : j.rev ≠ i := by
      rintro rfl
      exact hji (Fin.rev_rev j).symm
    simp [Function.update_of_ne hji, Function.update_of_ne hrev, bidWindow]

theorem bidWindow_update (i : Fin lobDepth) (l : PriceLevel) (best worst : Fin lobDepth)
    (count : Int32) :
    { b with bids := Function.update b.bids i l, bestBidIndex := best, worstBidIndex := worst,
             numOfBids := count : OrderBook }.bidWindow c =
      ⟨Function.update (b.bidWindow c).slot i.rev ⟨c - l.price, l.quantity, l.isActive⟩,
        best.rev, worst.rev, word count⟩ := by
  rw [← bidWindow_update_slot]
  rfl

theorem bidWindow_update_key (i j : Fin lobDepth) (l : PriceLevel) :
    (Function.update (b.bidWindow c).slot i.rev ⟨c - l.price, l.quantity, l.isActive⟩ j.rev).key =
      c - (Function.update b.bids i l j).price := by
  rw [← bidWindow_update_slot]
  simp

/-- The guards of the bid code on an add to a non-empty side. -/
def bidAccepts : Bool :=
  let bestPrice := (b.bids b.bestBidIndex).price
  let worstPrice := (b.bids b.worstBidIndex).price
  if b.bestBidIndex = b.worstBidIndex then castInt |p - bestPrice| ≤ maxShiftStep
  else if p > bestPrice then
    castInt (p - bestPrice) ≤ maxShiftStep ∧
      castInt (b.bestBidIndex.val + castInt (p - bestPrice)) < lobDepth
  else if p < worstPrice then
    castInt (worstPrice - p) ≤ maxShiftStep ∧
      0 ≤ castInt (b.worstBidIndex.val - castInt (worstPrice - p))
  else true

variable {b p}

theorem bidAccepts_single (hbw : b.bestBidIndex = b.worstBidIndex) :
    b.bidAccepts p = decide (castInt |p - (b.bids b.bestBidIndex).price| ≤ maxShiftStep) := by
  simp only [bidAccepts, if_pos hbw]

theorem bidAccepts_raise (hbw : b.bestBidIndex ≠ b.worstBidIndex)
    (hhigh : p > (b.bids b.bestBidIndex).price) :
    b.bidAccepts p = decide (castInt (p - (b.bids b.bestBidIndex).price) ≤ maxShiftStep ∧
      castInt (b.bestBidIndex.val + castInt (p - (b.bids b.bestBidIndex).price)) <
        lobDepth) := by
  simp only [bidAccepts, if_neg hbw, if_pos hhigh]

theorem bidAccepts_lower (hbw : b.bestBidIndex ≠ b.worstBidIndex)
    (hhigh : ¬ p > (b.bids b.bestBidIndex).price) (hlow : p < (b.bids b.worstBidIndex).price) :
    b.bidAccepts p = decide (castInt ((b.bids b.worstBidIndex).price - p) ≤ maxShiftStep ∧
      0 ≤ castInt (b.worstBidIndex.val - castInt ((b.bids b.worstBidIndex).price - p))) := by
  simp only [bidAccepts, if_neg hbw, if_neg hhigh, if_pos hlow]

variable (b p)

theorem bidWindow_key_best :
    (b.bidWindow c).key (b.bidWindow c).best = c - (b.bids b.bestBidIndex).price := by
  simp [Window.key, bidWindow]

theorem bidWindow_key_worst :
    (b.bidWindow c).key (b.bidWindow c).worst = c - (b.bids b.worstBidIndex).price := by
  simp [Window.key, bidWindow]

/-- The add of the source while both endpoints are on one slot. -/
theorem bidWindow_insertSingle (index : Fin lobDepth) (hindex : b.priceToIndex p true = index)
    {best worst : Fin lobDepth}
    (hbest : best = if p > (b.bids b.bestBidIndex).price then index else b.bestBidIndex)
    (hworst : worst = if p > (b.bids b.bestBidIndex).price then b.worstBidIndex
      else if p < (b.bids b.bestBidIndex).price then index else b.worstBidIndex) :
    { b with bids := Function.update b.bids index ⟨p, q, true⟩
             bestBidIndex := best
             worstBidIndex := worst
             numOfBids :=
               if p ≠ (Function.update b.bids index ⟨p, q, true⟩
                 (if best = index then worst else best)).price
               then b.numOfBids + 1 else b.numOfBids : OrderBook }.bidWindow c =
      (b.bidWindow c).insertSingle wordSize (c - p) q := by
  have hnewBest : (if c - p < c - (b.bids b.bestBidIndex).price then index.rev
      else (b.bidWindow c).best) = best.rev := by
    rw [hbest, apply_ite Fin.rev]
    exact if_congr (by omega) rfl rfl
  have hnewWorst : (if c - (b.bids b.bestBidIndex).price < c - p then index.rev
      else (b.bidWindow c).worst) = worst.rev := by
    rw [hworst]
    split <;> split <;> try split
    all_goals first | rfl | omega
  have hother : (if best.rev = index.rev then worst.rev else best.rev) =
      (if best = index then worst else best).rev := by
    rw [apply_ite Fin.rev]
    exact if_congr Fin.rev_inj rfl rfl
  have hkey := bidWindow_update_key c b index (if best = index then worst else best) ⟨p, q, true⟩
  rw [bidWindow_update]
  simp only [Window.insertSingle, bidWindow_indexOf, hindex, bidWindow_key_best, hnewBest,
    hnewWorst, hother, hkey, apply_ite word, word_add_one]
  congr 1
  exact if_congr (by omega) rfl rfl

theorem addBid_window :
    (b.addBid p q).bidWindow c =
      (b.bidWindow c).insert wordSize (b.bidAccepts p) (firstIndex p).rev (c - p) q := by
  unfold addBid Window.insert
  rw [bidWindow_key_best, bidWindow_key_worst, bidWindow_best, bidWindow_worst, bidWindow_count,
    bidWindow_indexOf]
  simp only [word_eq_zero_iff]
  split
  · rw [bidWindow_update, word_add_one]
    rfl
  by_cases hbw : b.bestBidIndex = b.worstBidIndex
  · rw [if_pos hbw, if_pos (congrArg Fin.rev hbw), bidAccepts_single hbw]
    by_cases hstep : castInt |p - (b.bids b.bestBidIndex).price| ≤ maxShiftStep
    · rw [if_neg (not_lt.mpr hstep), decide_eq_true hstep, if_pos rfl]
      exact bidWindow_insertSingle c b p q _ rfl rfl rfl
    · rw [if_pos (not_le.mp hstep), decide_eq_false hstep]
      rfl
  rw [if_neg hbw, if_neg (fun h => hbw (Fin.rev_injective h))]
  by_cases hin : p ≤ (b.bids b.bestBidIndex).price ∧ p ≥ (b.bids b.worstBidIndex).price
  · have hin' : c - (b.bids b.bestBidIndex).price ≤ c - p ∧
        c - p ≤ c - (b.bids b.worstBidIndex).price := by omega
    rw [if_pos hin, if_pos hin', bidWindow_update, bidWindow_isActive]
    cases (b.bids (b.priceToIndex p true)).isActive <;> rfl
  have hin' : ¬ (c - (b.bids b.bestBidIndex).price ≤ c - p ∧
      c - p ≤ c - (b.bids b.worstBidIndex).price) := by omega
  rw [if_neg hin, if_neg hin']
  by_cases hhigh : p > (b.bids b.bestBidIndex).price
  · have hhigh' : c - p < c - (b.bids b.bestBidIndex).price := by omega
    rw [if_pos hhigh, if_pos hhigh', bidAccepts_raise hbw hhigh]
    split
    · rename_i hstep
      rw [decide_eq_false (by omega)]
      rfl
    · rename_i hstep
      rw [decide_eq_true (by omega), bidWindow_update]
      rfl
  · have hhigh' : ¬ c - p < c - (b.bids b.bestBidIndex).price := by omega
    rw [if_neg hhigh, if_neg hhigh', bidAccepts_lower hbw hhigh (by omega)]
    split
    · rename_i hstep
      rw [decide_eq_false (by omega)]
      rfl
    · rename_i hstep
      rw [decide_eq_true (by omega), bidWindow_update]
      rfl

theorem rescan_bids (cand : ℕ → Fin lobDepth) (cand' : ℕ → Fin lobDepth)
    (h : ∀ d, 1 ≤ d → d < lobDepth → (cand d).rev = cand' d) :
    (rescan b.bids cand).map Fin.rev = (b.bidWindow c).scan cand' := by
  rw [← Window.scan_congr (b.bidWindow c) h]
  simp only [rescan, Window.scan, Option.map_map, bidWindow, Fin.rev_rev]
  rfl

theorem rescan_bids_before (i : Fin lobDepth) :
    (rescan b.bids (slotBefore i)).map Fin.rev = (b.bidWindow c).scan (Window.above i.rev) := by
  apply rescan_bids
  intro d _ hd
  rw [slotBefore_eq_below i hd]
  rw [Window.below, Window.above, ← residue_rev, val_rev]
  congr 1
  omega

theorem rescan_bids_after (i : Fin lobDepth) :
    (rescan b.bids (slotAfter i)).map Fin.rev = (b.bidWindow c).scan (Window.below i.rev) := by
  apply rescan_bids
  intro d _ hd
  rw [slotAfter_eq_above i d]
  rw [Window.below, Window.above, ← residue_rev, val_rev]
  congr 1
  omega

theorem removeBid_window : (b.removeBid p).bidWindow c =
    (b.bidWindow c).remove (Fin.rev 0) (c - p) := by
  unfold removeBid Window.remove
  rw [bidWindow_indexOf, bidWindow_isActive, bidWindow_count]
  generalize b.priceToIndex p true = i
  dsimp only
  by_cases hzero : b.numOfBids = 0
  · rw [if_pos hzero, if_pos ((word_eq_zero_iff _).mpr hzero)]
  rw [if_neg hzero, if_neg (mt (word_eq_zero_iff _).mp hzero)]
  cases hact : (b.bids i).isActive with
  | false => rfl
  | true =>
    rw [if_neg (by decide), if_pos rfl]
    let b' : OrderBook :=
      { b with
        bids := Function.update b.bids i { b.bids i with isActive := false, quantity := 0 },
        numOfBids := b.numOfBids - 1 }
    have hclear : b'.bidWindow c = (b.bidWindow c).clear i.rev := by
      refine (bidWindow_update c b i _ _ _ _).trans ?_
      rw [word_sub_one hzero]
      simp [Window.clear, bidWindow]
    unfold Window.erase
    simp only [← hclear]
    rw [← rescan_bids_before, ← rescan_bids_after]
    have hcount' : (b'.bidWindow c).count = word (b.numOfBids - 1) := rfl
    rw [hcount', bidWindow_best c b, bidWindow_worst c b]
    simp only [word_eq_zero_iff]
    split
    · rfl
    by_cases hib : i = b.bestBidIndex
    · rw [if_pos hib, if_pos (congrArg Fin.rev hib), Option.getD_map]
      rfl
    rw [if_neg hib, if_neg (fun h => hib (Fin.rev_injective h))]
    by_cases hiw : i = b.worstBidIndex
    · rw [if_pos hiw, if_pos (congrArg Fin.rev hiw), Option.getD_map]
      rfl
    · rw [if_neg hiw, if_neg (fun h => hiw (Fin.rev_injective h))]

end Bids

/-! ### One update, seen by each side -/

section Update

variable (b : OrderBook) (u : MarketUpdate)

theorem removeAsk_bids (c p : ℤ) : (b.removeAsk p).bidWindow c = b.bidWindow c := by
  unfold removeAsk
  dsimp only
  repeat' split
  all_goals rfl

theorem addAsk_bids (c p q : ℤ) : (b.addAsk p q).bidWindow c = b.bidWindow c := by
  unfold addAsk
  dsimp only
  repeat' split
  all_goals rfl

theorem removeBid_asks (p : ℤ) : (b.removeBid p).askWindow = b.askWindow := by
  unfold removeBid
  dsimp only
  repeat' split
  all_goals rfl

theorem addBid_asks (p q : ℤ) : (b.addBid p q).askWindow = b.askWindow := by
  unfold addBid
  dsimp only
  repeat' split
  all_goals rfl

theorem latchExponents_askWindow : (b.latchExponents u).askWindow = b.askWindow := by
  unfold latchExponents
  split <;> rfl

theorem latchExponents_bidWindow (c : ℤ) :
    (b.latchExponents u).bidWindow c = b.bidWindow c := by
  unfold latchExponents
  split <;> rfl

theorem latchExponents_askAccepts (p : ℤ) : (b.latchExponents u).askAccepts p = b.askAccepts p := by
  unfold latchExponents
  split <;> rfl

theorem latchExponents_bidAccepts (p : ℤ) : (b.latchExponents u).bidAccepts p = b.bidAccepts p := by
  unfold latchExponents
  split <;> rfl

/-- What one update does to the ask side. -/
theorem addUpdate_askWindow :
    (b.addUpdate u).askWindow =
      if u.side = .sell then
        if u.quantity.toInt = 0 then b.askWindow.remove 0 u.price.toInt
        else b.askWindow.insert wordSize (b.askAccepts u.price.toInt)
          (firstIndex u.price.toInt) u.price.toInt u.quantity.toInt
      else b.askWindow := by
  unfold addUpdate
  dsimp only
  split
  · split
    · rw [removeAsk_window, latchExponents_askWindow]
    · rw [addAsk_window, latchExponents_askWindow, latchExponents_askAccepts]
  · split
    · rw [removeBid_asks, latchExponents_askWindow]
    · rw [addBid_asks, latchExponents_askWindow]

/-- What one update does to the bid side, read with the keys c - p. -/
theorem addUpdate_bidWindow (c : ℤ) :
    (b.addUpdate u).bidWindow c =
      if u.side = .sell then b.bidWindow c
      else if u.quantity.toInt = 0 then (b.bidWindow c).remove (Fin.rev 0) (c - u.price.toInt)
      else (b.bidWindow c).insert wordSize (b.bidAccepts u.price.toInt)
        (firstIndex u.price.toInt).rev (c - u.price.toInt) u.quantity.toInt := by
  unfold addUpdate
  dsimp only
  split
  · split
    · rw [removeAsk_bids, latchExponents_bidWindow]
    · rw [addAsk_bids, latchExponents_bidWindow]
  · split
    · rw [removeBid_window, latchExponents_bidWindow]
    · rw [addBid_window, latchExponents_bidWindow, latchExponents_bidAccepts]

end Update

end HftSystem.OrderBook
