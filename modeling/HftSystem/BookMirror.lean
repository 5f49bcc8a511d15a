import HftSystem.BookInvariants
import HftSystem.WindowAgreement

/-!
The bid code is the mirror image of the ask code: reflecting prices at a
constant c that ends a block of 256 ticks, and slots at 255, turns a run of BUY
updates into a run of SELL updates. The two runs agree slot by slot.
-/
namespace HftSystem.OrderBook

open TwosComplement CircularWindow

theorem firstIndex_mirror {c p : ℤ} (hc : c % lobDepth = lobDepth - 1) (hp : 0 ≤ p) (hpc : p ≤ c) :
    firstIndex (c - p) = (firstIndex p).rev := by
  apply Fin.ext
  simp only [firstIndex, Fin.val_rev, lobDepth] at hc ⊢
  omega

/-- The distance guards are even, and the two index guards say the same of
mirrored indices, as long as no distance leaves the range of `int`. -/
theorem guards_mirror (index : Fin lobDepth) {d : ℤ} (hpos : 0 ≤ d) (hd : d < 2 ^ 31) :
    (castInt d ≤ maxShiftStep ∧ 0 ≤ castInt (index.rev.val - castInt d)) ↔
      castInt d ≤ maxShiftStep ∧ castInt (index.val + castInt d) < lobDepth := by
  have hindex := index.isLt
  rw [castInt_of_fits (by omega) hd, val_rev]
  refine and_congr_right ?_
  intro hstep
  have hmax : maxShiftStep = 64 := rfl
  have hdepth : lobDepth = 256 := rfl
  rw [castInt_of_fits (by omega) (by omega), castInt_of_fits (by omega) (by omega)]
  omega

variable {c : ℤ} {A B : OrderBook}

theorem accepts_mirror (h : Window.Agree (B.bidWindow c) A.askWindow)
    (hpos : 0 < (B.bidWindow c).count) {p : ℤ} (hbest : |p - (B.bids B.bestBidIndex).price| < 2 ^ 31)
    (hworst : |p - (B.bids B.worstBidIndex).price| < 2 ^ 31) :
    A.askAccepts (c - p) = B.bidAccepts p := by
  obtain ⟨hbi, hbk⟩ := h.best hpos
  obtain ⟨hwi, hwk⟩ := h.worst hpos
  change B.bestBidIndex.rev = A.bestAskIndex at hbi
  change B.worstBidIndex.rev = A.worstAskIndex at hwi
  change (B.bidWindow c).key B.bestBidIndex.rev = (A.asks B.bestBidIndex.rev).price at hbk
  change (B.bidWindow c).key B.worstBidIndex.rev = (A.asks B.worstBidIndex.rev).price at hwk
  rw [bidWindow_key, hbi] at hbk
  rw [bidWindow_key, hwi] at hwk
  rw [abs_lt] at hbest hworst
  by_cases hbw : B.bestBidIndex = B.worstBidIndex
  · have hbw' : A.bestAskIndex = A.worstAskIndex := by rw [← hbi, ← hwi, hbw]
    rw [askAccepts_single hbw', bidAccepts_single hbw, ← hbk]
    have hdist : c - p - (c - (B.bids B.bestBidIndex).price) =
        -(p - (B.bids B.bestBidIndex).price) := by omega
    rw [hdist, abs_neg]
  have hbw' : A.bestAskIndex ≠ A.worstAskIndex := by
    rw [← hbi, ← hwi]
    exact fun heq => hbw (Fin.rev_injective heq)
  by_cases hhigh : p > (B.bids B.bestBidIndex).price
  · rw [askAccepts_lower hbw' (by omega), bidAccepts_raise hbw hhigh, ← hbk, ← hbi]
    have hdist : c - (B.bids B.bestBidIndex).price - (c - p) =
        p - (B.bids B.bestBidIndex).price := by omega
    rw [hdist]
    exact decide_eq_decide.mpr (guards_mirror _ (by omega) (by omega))
  by_cases hlow : p < (B.bids B.worstBidIndex).price
  · rw [askAccepts_raise hbw' (by omega) (by omega), bidAccepts_lower hbw hhigh hlow, ← hwk, ← hwi]
    have hdist : c - p - (c - (B.bids B.worstBidIndex).price) =
        (B.bids B.worstBidIndex).price - p := by omega
    rw [hdist]
    have hguards := guards_mirror B.worstBidIndex.rev
      (d := (B.bids B.worstBidIndex).price - p) (by omega) (by omega)
    rw [Fin.rev_rev] at hguards
    exact decide_eq_decide.mpr hguards.symm
  · have hleft : A.askAccepts (c - p) = true := by
      simp only [askAccepts, if_neg hbw']
      rw [if_neg (by omega), if_neg (by omega)]
    have hright : B.bidAccepts p = true := by
      simp only [bidAccepts, if_neg hbw, if_neg hhigh, if_neg hlow]
    rw [hleft, hright]

/-- The SELL update at the reflected price. -/
def mirrorUpdate (c : ℤ) (u : MarketUpdate) : MarketUpdate :=
  { u with side := .sell, price := Int64.ofInt (c - u.price.toInt) }

theorem mirrorUpdate_price {c : ℤ} {u : MarketUpdate} (hc : c < 2 ^ 63)
    (hp : 0 ≤ u.price.toInt) (hpc : u.price.toInt ≤ c) :
    (mirrorUpdate c u).price.toInt = c - u.price.toInt :=
  Int64.toInt_ofInt_of_le (by omega) (by omega)

theorem insert_of_count_zero {w : Window lobDepth ℤ} (hcount : w.count = 0)
    (accept accept' : Bool) (first : Fin lobDepth) (p q : ℤ) :
    w.insert wordSize accept first p q = w.insert wordSize accept' first p q := by
  simp only [Window.insert, if_pos hcount]

/-- One BUY update and its mirror image keep the two books in agreement. -/
theorem addUpdate_mirror (hc : c % lobDepth = lobDepth - 1) (hmax : c < 2 ^ 63)
    {P : ℤ → Prop} (hkeys : (B.bidWindow c).Keys P)
    (h : Window.Agree (B.bidWindow c) A.askWindow) {u : MarketUpdate} (hside : u.side = .buy)
    (hp : 0 ≤ u.price.toInt) (hpc : u.price.toInt ≤ c)
    (hnear : ∀ k, P k → |k - (c - u.price.toInt)| < 2 ^ 31) :
    Window.Agree ((B.addUpdate u).bidWindow c) (A.addUpdate (mirrorUpdate c u)).askWindow := by
  have hnotSell : u.side ≠ .sell := by
    rw [hside]
    decide
  have hquantity : (mirrorUpdate c u).quantity = u.quantity := rfl
  have hsell : (mirrorUpdate c u).side = .sell := rfl
  rw [addUpdate_bidWindow, if_neg hnotSell, addUpdate_askWindow, if_pos hsell,
    mirrorUpdate_price hmax hp hpc, hquantity]
  split
  · exact h.remove _ _ _
  rw [firstIndex_mirror hc hp hpc]
  by_cases hpos : 0 < (B.bidWindow c).count
  · have hdist : ∀ i, P ((B.bidWindow c).key i.rev) →
        |u.price.toInt - (B.bids i).price| < 2 ^ 31 := by
      intro i hi
      have hlt := hnear _ hi
      rw [bidWindow_key] at hlt
      have heq : c - (B.bids i).price - (c - u.price.toInt) =
          u.price.toInt - (B.bids i).price := by omega
      rwa [heq] at hlt
    rw [accepts_mirror h hpos (hdist _ (hkeys.best hpos)) (hdist _ (hkeys.worst hpos))]
    exact h.insert _ _ _ _ _
  · have hzero : (B.bidWindow c).count = 0 := Nat.eq_zero_of_not_pos hpos
    rw [insert_of_count_zero hzero _ (A.askAccepts (c - u.price.toInt))]
    exact h.insert _ _ _ _ _

theorem addUpdate_keys {P : ℤ → Prop} (h : (B.bidWindow c).Keys P) {u : MarketUpdate}
    (hp : P (c - u.price.toInt)) : ((B.addUpdate u).bidWindow c).Keys P := by
  rw [addUpdate_bidWindow]
  split
  · exact h
  · split
    · exact h.remove _ _
    · exact h.insert _ _ _ hp _

theorem addUpdates_mirror (hc : c % lobDepth = lobDepth - 1) (hmax : c < 2 ^ 63)
    {P : ℤ → Prop} (us : List MarketUpdate)
    (hus : ∀ u ∈ us, u.side = .buy ∧ 0 ≤ u.price.toInt ∧ u.price.toInt ≤ c ∧
      P (c - u.price.toInt) ∧ ∀ k, P k → |k - (c - u.price.toInt)| < 2 ^ 31)
    (hkeys : (B.bidWindow c).Keys P) (h : Window.Agree (B.bidWindow c) A.askWindow) :
    Window.Agree ((B.addUpdates us).bidWindow c)
      (A.addUpdates (us.map (mirrorUpdate c))).askWindow := by
  induction us generalizing A B with
  | nil => exact h
  | cons u us ih =>
    obtain ⟨hside, hp, hpc, hseen, hnear⟩ := hus u List.mem_cons_self
    exact ih (fun v hv => hus v (List.mem_cons_of_mem u hv)) (addUpdate_keys hkeys hseen)
      (addUpdate_mirror hc hmax hkeys h hside hp hpc hnear)

theorem slots_mirror (h : Window.Agree (B.bidWindow c) A.askWindow) (i : Fin lobDepth) (p q : ℤ) :
    B.bids i = ⟨p, q, true⟩ ↔ A.asks i.rev = ⟨c - p, q, true⟩ := by
  have hactive : (B.bids i).isActive = (A.asks i.rev).isActive := by
    have heq := h.active i.rev
    simpa [bidWindow, askWindow] using heq
  have hlevel : (B.bids i).isActive = true →
      c - (B.bids i).price = (A.asks i.rev).price ∧
        (B.bids i).quantity = (A.asks i.rev).quantity := by
    intro hi
    have heq := h.level i.rev ((bidWindow_active c B i).mpr hi)
    simp only [bidWindow, askWindow, Fin.rev_rev, Level.mk.injEq] at heq
    exact ⟨heq.1, heq.2.1⟩
  constructor
  · intro hbid
    rw [hbid] at hactive hlevel
    obtain ⟨hprice, hqty⟩ := hlevel rfl
    cases hask : A.asks i.rev with
    | mk price quantity isActive =>
      simp_all
  · intro hask
    rw [hask] at hactive hlevel
    obtain ⟨hprice, hqty⟩ := hlevel hactive
    have hp : (B.bids i).price = p := by
      simp only at hprice
      omega
    cases hbid : B.bids i with
    | mk price quantity isActive =>
      simp_all

/-- A run of BUY updates and the run of SELL updates at the prices reflected at c
give the same counter, mirrored slots and mirrored endpoints. -/
theorem bids_mirror_asks (c : ℤ) (hc : c % lobDepth = lobDepth - 1) (hmax : c < 2 ^ 63)
    (us : List MarketUpdate) (hside : ∀ u ∈ us, u.side = .buy)
    (hrange : ∀ u ∈ us, 0 ≤ u.price.toInt ∧ u.price.toInt ≤ c)
    (hnear : ∀ u ∈ us, ∀ v ∈ us, |u.price.toInt - v.price.toInt| < 2 ^ 31) :
    let B := addUpdates {} us
    let A := addUpdates {} (us.map (mirrorUpdate c))
    B.numOfBids = A.numOfAsks ∧
      (∀ i p q, B.bids i = ⟨p, q, true⟩ ↔ A.asks i.rev = ⟨c - p, q, true⟩) ∧
      (B.numOfBids ≠ 0 →
        B.bestBidIndex = A.bestAskIndex.rev ∧ B.worstBidIndex = A.worstAskIndex.rev) := by
  intro B A
  have h : Window.Agree (B.bidWindow c) A.askWindow := by
    refine addUpdates_mirror (P := fun k => ∃ v ∈ us, k = c - v.price.toInt) hc hmax us ?_
      (.of_empty (fresh_bidWindow_empty c))
      (.of_empty (fresh_bidWindow_empty c) fresh_askWindow_empty)
    intro u hu
    refine ⟨hside u hu, (hrange u hu).1, (hrange u hu).2, ⟨u, hu, rfl⟩, ?_⟩
    rintro k ⟨v, hv, rfl⟩
    have hdist := hnear u hu v hv
    have heq : c - v.price.toInt - (c - u.price.toInt) = u.price.toInt - v.price.toInt := by omega
    rwa [heq]
  refine ⟨?_, slots_mirror h, ?_⟩
  · rw [← ofNat_word B.numOfBids, ← ofNat_word A.numOfAsks]
    exact congrArg Int32.ofNat h.count
  intro hne
  have hpos : 0 < (B.bidWindow c).count := Nat.pos_of_ne_zero (mt (word_eq_zero_iff _).mp hne)
  exact ⟨Fin.rev_injective ((h.best hpos).1.trans (Fin.rev_rev _).symm),
    Fin.rev_injective ((h.worst hpos).1.trans (Fin.rev_rev _).symm)⟩

/-- Two bids and their mirror images at c = 511. -/
theorem bids_mirror_asks_two_levels :
    (addUpdates {} [.new 0 .buy 300 5 0 0 0, .new 0 .buy 310 7 0 0 0]).bestBidIndex =
      (addUpdates {} ([.new 0 .buy 300 5 0 0 0, .new 0 .buy 310 7 0 0 0].map
        (mirrorUpdate 511))).bestAskIndex.rev :=
  ((bids_mirror_asks 511 (by decide) (by decide)
    [.new 0 .buy 300 5 0 0 0, .new 0 .buy 310 7 0 0 0] (by decide) (by decide)
    (by decide)).2.2 (by decide +kernel)).1

end HftSystem.OrderBook
