import HftSystem.BookArithmetic
import HftSystem.Transitions
import Mathlib.Data.Fintype.BigOperators

/-!
Invariants of the order book over whole runs. Lookup is sound as long as no level
counter leaves the range of `int`, whatever the prices; a run that takes one out of it
is exhibited. The counters and the endpoints are exact as long as no accepted add
makes a side span more ticks than the ring has slots; a run that does so is exhibited.
-/
namespace HftSystem.OrderBook

open CircularWindow Transitions TwosComplement

/-! ### Runs -/

theorem addUpdates_cons (b : OrderBook) (u : MarketUpdate) (us : List MarketUpdate) :
    b.addUpdates (u :: us) = (b.addUpdate u).addUpdates us := rfl

theorem fresh_askWindow_empty : ({} : OrderBook).askWindow.Empty :=
  ⟨rfl, fun _ => Bool.false_ne_true⟩

theorem fresh_bidWindow_empty (c : ℤ) : (({} : OrderBook).bidWindow c).Empty :=
  ⟨rfl, fun _ => Bool.false_ne_true⟩

/-! ### Counting active slots -/

def activeLevels (levels : Fin lobDepth → PriceLevel) : ℕ :=
  (Finset.univ.filter (fun i => (levels i).isActive = true)).card

theorem bidWindow_active (c : ℤ) (b : OrderBook) (i : Fin lobDepth) :
    (b.bidWindow c).Active i.rev ↔ (b.bids i).isActive = true := by
  simp [Window.Active, bidWindow]

theorem bidWindow_key (c : ℤ) (b : OrderBook) (i : Fin lobDepth) :
    (b.bidWindow c).key i.rev = c - (b.bids i).price := by
  simp [Window.key, bidWindow]

theorem bidWindow_activeCount (c : ℤ) (b : OrderBook) :
    (b.bidWindow c).activeCount = activeLevels b.bids := by
  refine Finset.card_equiv Fin.revPerm ?_
  intro i
  simp only [Finset.mem_filter, Finset.mem_univ, true_and]
  exact Iff.rfl

/-! ### Lookup -/

/-- What a side promises about looking up its prices. -/
structure LookupSound (levels : Fin lobDepth → PriceLevel) (index : ℤ → Fin lobDepth)
    (count : Int32) : Prop where
  lookup : ∀ i, (levels i).isActive = true → index (levels i).price = i
  unique : ∀ i j, (levels i).isActive = true → (levels j).isActive = true →
    (levels i).price = (levels j).price → i = j
  counted : activeLevels levels ≤ count.toInt
  empty : count = 0 → ∀ i, (levels i).isActive = false

/-- A window with sound lookup whose counter is not negative as an `int`. -/
structure Sound (w : Window lobDepth ℤ) : Prop where
  aligned : w.Aligned
  range : w.count < 2 ^ 31

namespace Sound

variable {w : Window lobDepth ℤ}

theorem of_empty (h : w.Empty) : Sound w where
  aligned := .of_empty h
  range := by
    rw [h.1]
    decide

theorem insert (h : Sound w) (accept : Bool) (first : Fin lobDepth) (p q : ℤ)
    (hroom : (w.insert wordSize accept first p q).count ≠ w.count → w.count + 1 < 2 ^ 31) :
    Sound (w.insert wordSize accept first p q) where
  aligned := h.aligned.insert (by decide) accept first p q
    (fun hmoved => (hroom hmoved).trans (by decide))
  range := by
    by_cases hmoved : (w.insert wordSize accept first p q).count = w.count
    · rw [hmoved]
      exact h.range
    · have hbump := (Window.insert_count wordSize accept first w p q).resolve_left hmoved
      rw [hbump, Window.bump_of_lt ((hroom hmoved).trans (by decide))]
      exact hroom hmoved

theorem remove (h : Sound w) (rest : Fin lobDepth) (p : ℤ) : Sound (w.remove rest p) where
  aligned := h.aligned.remove rest p
  range := (Window.remove_count_le rest w p).trans_lt h.range

end Sound

theorem lookupSound_asks {b : OrderBook} (h : Sound b.askWindow) :
    LookupSound b.asks (fun p => b.priceToIndex p false) b.numOfAsks where
  lookup i hi := by
    rw [← askWindow_indexOf]
    exact h.aligned.indexOf_key hi
  unique i j hi hj hp := h.aligned.key_injective hi hj hp
  counted := by
    rw [toInt_of_word_lt h.range]
    exact Int.ofNat_le.mpr h.aligned.counted
  empty hzero i := by
    have hnot := h.aligned.not_active_of_count ((word_eq_zero_iff _).mpr hzero) i
    simpa [Window.Active, askWindow] using hnot

theorem lookupSound_bids {b : OrderBook} (h : Sound (b.bidWindow 0)) :
    LookupSound b.bids (fun p => b.priceToIndex p true) b.numOfBids where
  lookup i hi := by
    apply Fin.rev_injective
    rw [← bidWindow_indexOf 0, ← bidWindow_key]
    exact h.aligned.indexOf_key ((bidWindow_active 0 b i).mpr hi)
  unique i j hi hj hp := by
    apply Fin.rev_injective
    apply h.aligned.key_injective ((bidWindow_active 0 b i).mpr hi)
      ((bidWindow_active 0 b j).mpr hj)
    rw [bidWindow_key, bidWindow_key, hp]
  counted := by
    rw [toInt_of_word_lt h.range, ← bidWindow_activeCount 0]
    exact Int.ofNat_le.mpr h.aligned.counted
  empty hzero i := by
    have hnot := h.aligned.not_active_of_count ((word_eq_zero_iff _).mpr hzero) i.rev
    rw [bidWindow_active] at hnot
    simpa using hnot

theorem addUpdate_sound (b : OrderBook) (u : MarketUpdate) (hfits : b.CounterFits u)
    (h : Sound b.askWindow ∧ Sound (b.bidWindow 0)) :
    Sound (b.addUpdate u).askWindow ∧ Sound ((b.addUpdate u).bidWindow 0) := by
  have hasks := addUpdate_askWindow b u
  have hbids := addUpdate_bidWindow b u 0
  by_cases hsell : u.side = .sell
  · rw [if_pos hsell] at hasks hbids
    refine ⟨?_, hbids ▸ h.2⟩
    by_cases hq : u.quantity.toInt = 0
    · rw [hasks, if_pos hq]
      exact h.1.remove _ _
    · rw [if_neg hq] at hasks
      rw [hasks]
      refine h.1.insert _ _ _ _ (fun hmoved => ?_)
      rw [← hasks] at hmoved
      have hroom := hfits.asks hsell hq (fun hsame => hmoved (congrArg word hsame))
      rw [toInt_of_word_lt h.1.range] at hroom
      exact_mod_cast hroom
  · rw [if_neg hsell] at hasks hbids
    refine ⟨hasks ▸ h.1, ?_⟩
    by_cases hq : u.quantity.toInt = 0
    · rw [hbids, if_pos hq]
      exact h.2.remove _ _
    · rw [if_neg hq] at hbids
      rw [hbids]
      refine h.2.insert _ _ _ _ (fun hmoved => ?_)
      rw [← hbids] at hmoved
      have hroom := hfits.bids hsell hq (fun hsame => hmoved (congrArg word hsame))
      rw [toInt_of_word_lt h.2.range] at hroom
      exact_mod_cast hroom

theorem addUpdates_sound {us : List MarketUpdate} (hfits : StepsMeet addUpdate CounterFits {} us)
    {vs : List MarketUpdate} (hinit : vs <+: us) :
    Sound (addUpdates {} vs).askWindow ∧ Sound ((addUpdates {} vs).bidWindow 0) :=
  foldl_invariant addUpdate_sound
    ⟨.of_empty fresh_askWindow_empty, .of_empty (fresh_bidWindow_empty 0)⟩ hfits hinit

/-- In a run that takes no counter out of its range, in every state reached, each active slot is
the one its price is looked up in, prices are unique on a side, and a counter bounds its active
slots. -/
theorem lookup_sound (us : List MarketUpdate) (hfits : StepsMeet addUpdate CounterFits {} us)
    (vs : List MarketUpdate) (hinit : vs <+: us) :
    LookupSound (addUpdates {} vs).asks (fun p => (addUpdates {} vs).priceToIndex p false)
        (addUpdates {} vs).numOfAsks ∧
      LookupSound (addUpdates {} vs).bids (fun p => (addUpdates {} vs).priceToIndex p true)
        (addUpdates {} vs).numOfBids := by
  have h := addUpdates_sound hfits hinit
  exact ⟨lookupSound_asks h.1, lookupSound_bids h.2⟩

/-- Asks in the slots 0 and 255, and a removal of the first. -/
theorem lookup_sound_wrapped_asks :
    LookupSound (addUpdates {} [.new 0 .sell 256 1 0 0 0, .new 0 .sell 255 1 0 0 0,
        .new 0 .sell 256 0 0 0 0]).asks
      (fun p => (addUpdates {} [.new 0 .sell 256 1 0 0 0, .new 0 .sell 255 1 0 0 0,
        .new 0 .sell 256 0 0 0 0]).priceToIndex p false)
      (addUpdates {} [.new 0 .sell 256 1 0 0 0, .new 0 .sell 255 1 0 0 0,
        .new 0 .sell 256 0 0 0 0]).numOfAsks :=
  (lookup_sound _ (by decide +kernel) _ (List.prefix_refl _)).1

/-! ### A counter out of its range -/

/-- The asks 255, 319, 383, ..., each one `maxShiftStep` above the one before it. -/
def climbAsk (j : ℕ) : MarketUpdate := .new 0 .sell (Int64.ofInt (255 + 64 * j)) 1 0 0 0

def climb (n : ℕ) : List MarketUpdate := (List.range n).map climbAsk

theorem climb_succ (n : ℕ) : climb (n + 1) = climb n ++ [climbAsk n] := by
  rw [climb, List.range_succ, List.map_append]
  rfl

theorem addUpdate_climbAsk (b : OrderBook) {j : ℕ} (hj : j < wordSize) :
    (b.addUpdate (climbAsk j)).askWindow =
      b.askWindow.insert wordSize (b.askAccepts (255 + 64 * j)) (firstIndex (255 + 64 * j))
        (255 + 64 * j) 1 := by
  have hsize : wordSize = 4294967296 := rfl
  have hprice : (climbAsk j).price.toInt = 255 + 64 * j :=
    Int64.toInt_ofInt_of_le (by omega) (by omega)
  have hquantity : (climbAsk j).quantity.toInt = 1 := rfl
  have hsell : (climbAsk j).side = .sell := rfl
  rw [addUpdate_askWindow, if_pos hsell, hquantity, if_neg (by decide), hprice]

/-- The ask side after 4 k + r + 1 of these adds. The best slot is 255, the worst went round the
ring k times and r quarters, and each add was counted. -/
structure Climbed (k r : ℕ) (w : Window lobDepth ℤ) : Prop where
  best : w.best.val = 255
  worst : w.worst.val = (255 + 64 * r) % 256
  lowest : w.key w.best = 255 + 256 * k
  highest : w.key w.worst = 255 + 64 * (4 * k + r)
  counted : w.count = 4 * k + r + 1

section Climb

variable {k r : ℕ} {b : OrderBook}

theorem Climbed.askAccepts (h : Climbed k r b.askWindow) (hr : r < 4) :
    b.askAccepts (255 + 64 * (4 * k + r + 1)) = true := by
  have hmax : maxShiftStep = 64 := rfl
  have hdepth : lobDepth = 256 := rfl
  have hbest : b.bestAskIndex.val = 255 := h.best
  have hworst : b.worstAskIndex.val = (255 + 64 * r) % 256 := h.worst
  have hlowest : (b.asks b.bestAskIndex).price = 255 + 256 * k := h.lowest
  have hhighest : (b.asks b.worstAskIndex).price = 255 + 64 * (4 * k + r) := h.highest
  by_cases hbw : b.bestAskIndex = b.worstAskIndex
  · have hdiff : (255 + 64 * (4 * k + r + 1) : ℤ) - (b.asks b.bestAskIndex).price = 64 := by
      rw [hbw, hhighest]
      omega
    rw [askAccepts_single hbw, hdiff, castInt_abs (by decide)]
    decide
  · have hne : b.bestAskIndex.val ≠ b.worstAskIndex.val := fun hval => hbw (Fin.ext hval)
    have hdiff : (255 + 64 * (4 * k + r + 1) : ℤ) - (b.asks b.worstAskIndex).price = 64 := by
      rw [hhighest]
      omega
    rw [askAccepts_raise hbw (by omega) (by omega), hdiff, castInt_of_fits (by decide) (by decide),
      castInt_of_fits (by omega) (by omega), decide_eq_true_iff]
    omega

/-- The price of the next add is 64 above the worst one, and its slot a quarter further. -/
theorem Climbed.indexOf {w : Window lobDepth ℤ} (h : Climbed k r w) :
    (w.indexOf (255 + 64 * (4 * k + r + 1))).val = (255 + 64 * (r + 1)) % 256 := by
  have hdepth : lobDepth = 256 := rfl
  have hraw : (w.best.val : ℤ) + (255 + 64 * (4 * k + r + 1) - w.key w.best) =
      ((255 + 64 * (r + 1) : ℕ) : ℤ) := by
    rw [h.lowest, h.best]
    push_cast
    omega
  have hindex : w.indexOf (255 + 64 * (4 * k + r + 1)) =
      ⟨(255 + 64 * (r + 1)) % 256, Nat.mod_lt _ (by decide)⟩ := by
    rw [Window.indexOf, hraw, residue_eq_iff]
    exact (Int.mod_modEq _ _).symm
  rw [hindex]

/-- Each add of the climb raises the worst index; at every fourth it comes back to slot 255. -/
theorem Climbed.insert {w : Window lobDepth ℤ} (h : Climbed k r w) (hr : r < 4)
    (hroom : 4 * k + r + 2 < wordSize) (first : Fin lobDepth) :
    ∃ k' r', r' < 4 ∧ 4 * k' + r' = 4 * k + r + 1 ∧
      Climbed k' r' (w.insert wordSize true first (255 + 64 * (4 * k + r + 1)) 1) := by
  have hbest := h.best
  have hworst := h.worst
  have hlowest := h.lowest
  have hhighest := h.highest
  have hcount := h.counted
  have hindex := h.indexOf
  have hspec := Window.insert_spec wordSize true first w (255 + 64 * (4 * k + r + 1)) 1
  generalize w.insert wordSize true first (255 + 64 * (4 * k + r + 1)) 1 = w' at hspec
  generalize hp : (255 + 64 * (4 * k + r + 1) : ℤ) = p at hspec hindex
  generalize hi : w.indexOf p = i at hspec hindex
  cases hspec with
  | first hzero => omega
  | drop _ hreject => exact absurd hreject.symm Bool.false_ne_true
  | replace _ _ hbw hsame =>
    have hval := congrArg Fin.val hbw
    have hval' := congrArg Fin.val hsame
    omega
  | inside _ _ _ hhigh => omega
  | lower _ _ hlow _ => omega
  | raise _ _ _ _ =>
    rw [hi, Window.bump_of_lt (by omega), hcount]
    by_cases hwrap : r = 3
    · obtain rfl : i = w.best := Fin.ext (by omega)
      refine ⟨k + 1, 0, by decide, by omega, ⟨hbest, hbest, ?_, ?_, ?_⟩⟩
      · exact (Window.key_write_self _ _ _ _ _ _ _).trans (by push_cast; omega)
      · exact (Window.key_write_self _ _ _ _ _ _ _).trans (by push_cast; omega)
      · change 4 * k + r + 1 + 1 = 4 * (k + 1) + 0 + 1
        omega
    · have hne : w.best ≠ i := fun hsame => by
        have hval := congrArg Fin.val hsame
        omega
      refine ⟨k, r + 1, by omega, by omega, ⟨hbest, hindex, ?_, ?_, rfl⟩⟩
      · exact (Window.key_write_of_ne _ _ _ _ _ _ _ _ hne).trans hlowest
      · exact (Window.key_write_self _ _ _ _ _ _ _).trans (by push_cast; omega)

/-- The first ask goes to slot 255 of the fresh book. -/
theorem climbed_first : Climbed 0 0 (({} : OrderBook).addUpdate (climbAsk 0)).askWindow := by
  rw [addUpdate_climbAsk _ (by decide), Window.insert, if_pos fresh_askWindow_empty.1]
  exact ⟨rfl, rfl, Window.key_write_self _ _ _ _ _ _ _, Window.key_write_self _ _ _ _ _ _ _, rfl⟩

theorem climbed_run (n : ℕ) (hn : n + 1 < wordSize) :
    ∃ k r, r < 4 ∧ 4 * k + r = n ∧ Climbed k r (addUpdates {} (climb (n + 1))).askWindow := by
  induction n with
  | zero => exact ⟨0, 0, by decide, rfl, climbed_first⟩
  | succ n ih =>
    obtain ⟨k, r, hr, rfl, h⟩ := ih (by omega)
    have hrun : addUpdates {} (climb (4 * k + r + 1 + 1)) =
        (addUpdates {} (climb (4 * k + r + 1))).addUpdate (climbAsk (4 * k + r + 1)) := by
      rw [climb_succ, addUpdates, List.foldl_concat]
      rfl
    rw [hrun, addUpdate_climbAsk _ (by omega)]
    push_cast
    rw [h.askAccepts hr]
    exact h.insert hr hn _

/-- From 2^31 adds on the counter is negative. -/
theorem climb_not_lookupSound {n : ℕ} (hlow : 2 ^ 31 ≤ n) (hhigh : n < wordSize) :
    ¬ LookupSound (addUpdates {} (climb n)).asks
      (fun p => (addUpdates {} (climb n)).priceToIndex p false)
      (addUpdates {} (climb n)).numOfAsks := by
  intro h
  obtain ⟨m, rfl⟩ : ∃ m, n = m + 1 := ⟨n - 1, by omega⟩
  obtain ⟨k, r, -, hm, hclimbed⟩ := climbed_run m hhigh
  have hlt := word_lt_of_nonneg ((Int.natCast_nonneg _).trans h.counted)
  have hcount : word (addUpdates {} (climb (m + 1))).numOfAsks = 4 * k + r + 1 := hclimbed.counted
  rw [hcount] at hlt
  omega

end Climb

theorem lookup_sound_fails_on_overflow :
    ¬ LookupSound (addUpdates {} (climb (2 ^ 31))).asks
      (fun p => (addUpdates {} (climb (2 ^ 31))).priceToIndex p false)
      (addUpdates {} (climb (2 ^ 31))).numOfAsks :=
  climb_not_lookupSound (Nat.le_refl _) (by decide)

/-! ### Counters and endpoints -/

/-- The counter is the number of active slots, and the endpoints of a non-empty
side hold its extreme prices. -/
structure SideInvariant (better : ℤ → ℤ → Prop) (levels : Fin lobDepth → PriceLevel)
    (best worst : Fin lobDepth) (count : Int32) : Prop where
  counted : count.toInt = activeLevels levels
  bounded : count.toInt ≤ lobDepth
  best_active : 0 < count.toInt → (levels best).isActive = true
  worst_active : 0 < count.toInt → (levels worst).isActive = true
  best_extreme : 0 < count.toInt → ∀ i, (levels i).isActive = true →
    better (levels best).price (levels i).price
  worst_extreme : 0 < count.toInt → ∀ i, (levels i).isActive = true →
    better (levels i).price (levels worst).price

structure RepInvariant (b : OrderBook) : Prop where
  asks : SideInvariant (· ≤ ·) b.asks b.bestAskIndex b.worstAskIndex b.numOfAsks
  bids : SideInvariant (· ≥ ·) b.bids b.bestBidIndex b.worstBidIndex b.numOfBids

/-- The counter of a tight window is small, so its sign does not matter. -/
theorem toInt_of_tight {w : Window lobDepth ℤ} (h : w.Tight) {counter : Int32}
    (hcount : w.count = word counter) : counter.toInt = w.count := by
  have hle := h.count_eq.trans_le w.activeCount_le
  rw [hcount] at hle ⊢
  exact toInt_of_word_lt (hle.trans_lt (by decide))

theorem sideInvariant_asks {b : OrderBook} (h : b.askWindow.Tight) :
    SideInvariant (· ≤ ·) b.asks b.bestAskIndex b.worstAskIndex b.numOfAsks := by
  have hcount : b.numOfAsks.toInt = b.askWindow.count := toInt_of_tight h rfl
  refine ⟨?_, ?_, ?_, ?_, ?_, ?_⟩
  · rw [hcount]
    exact_mod_cast h.count_eq
  · rw [hcount]
    exact_mod_cast h.count_eq.trans_le b.askWindow.activeCount_le
  · intro hpos
    exact h.best_active (by omega)
  · intro hpos
    exact h.worst_active (by omega)
  · exact fun _ i hi => h.lower i hi
  · exact fun _ i hi => h.upper i hi

theorem sideInvariant_bids {b : OrderBook} (h : (b.bidWindow 0).Tight) :
    SideInvariant (· ≥ ·) b.bids b.bestBidIndex b.worstBidIndex b.numOfBids := by
  have hcount : b.numOfBids.toInt = (b.bidWindow 0).count := toInt_of_tight h rfl
  refine ⟨?_, ?_, ?_, ?_, ?_, ?_⟩
  · rw [hcount]
    exact_mod_cast h.count_eq.trans (bidWindow_activeCount 0 b)
  · rw [hcount]
    exact_mod_cast h.count_eq.trans_le (b.bidWindow 0).activeCount_le
  · intro hpos
    exact (bidWindow_active 0 b _).mp (h.best_active (by omega))
  · intro hpos
    exact (bidWindow_active 0 b _).mp (h.worst_active (by omega))
  · intro _ i hi
    have hkey := h.lower i.rev ((bidWindow_active 0 b i).mpr hi)
    change (b.bidWindow 0).key b.bestBidIndex.rev ≤ _ at hkey
    rw [bidWindow_key, bidWindow_key] at hkey
    omega
  · intro _ i hi
    have hkey := h.upper i.rev ((bidWindow_active 0 b i).mpr hi)
    change _ ≤ (b.bidWindow 0).key b.worstBidIndex.rev at hkey
    rw [bidWindow_key, bidWindow_key] at hkey
    omega

/-- An add at price p to a non-empty ask side is dropped by the guards, or keeps
the side's prices less than `lobDepth` apart, or replaces its only level. -/
def AskFits (b : OrderBook) (p : ℤ) : Prop :=
  b.numOfAsks ≠ 0 → b.askAccepts p = true →
    b.bestAskIndex = b.worstAskIndex ∧ b.priceToIndex p false = b.bestAskIndex ∨
      p - (b.asks b.bestAskIndex).price < lobDepth ∧
        (b.asks b.worstAskIndex).price - p < lobDepth

def BidFits (b : OrderBook) (p : ℤ) : Prop :=
  b.numOfBids ≠ 0 → b.bidAccepts p = true →
    b.bestBidIndex = b.worstBidIndex ∧ b.priceToIndex p true = b.bestBidIndex ∨
      (b.bids b.bestBidIndex).price - p < lobDepth ∧
        p - (b.bids b.worstBidIndex).price < lobDepth

/-- The condition on one update and the book before it. Of a removal it only asks that the update
is defined. -/
def UpdateFits (b : OrderBook) (u : MarketUpdate) : Prop :=
  b.Defined u ∧ (u.quantity ≠ 0 →
    if u.side = .sell then b.AskFits u.price.toInt else b.BidFits u.price.toInt)

instance (b : OrderBook) (p : ℤ) : Decidable (b.AskFits p) :=
  inferInstanceAs (Decidable (_ → _))

instance (b : OrderBook) (p : ℤ) : Decidable (b.BidFits p) :=
  inferInstanceAs (Decidable (_ → _))

instance (b : OrderBook) (u : MarketUpdate) : Decidable (b.UpdateFits u) :=
  inferInstanceAs (Decidable (_ ∧ _))

theorem AskFits.fits {b : OrderBook} {p : ℤ} (h : b.AskFits p) (haccept : b.askAccepts p = true)
    (hpos : 0 < b.askWindow.count) : Window.Tight.Fits b.askWindow p := by
  rcases h (mt (word_eq_zero_iff _).mpr hpos.ne') haccept with ⟨hbw, hi⟩ | hnear
  · exact Or.inl ⟨hbw, (askWindow_indexOf b p).trans hi⟩
  · exact Or.inr hnear

theorem BidFits.fits {b : OrderBook} {p : ℤ} (h : b.BidFits p) (haccept : b.bidAccepts p = true)
    (hpos : 0 < (b.bidWindow 0).count) : Window.Tight.Fits (b.bidWindow 0) (0 - p) := by
  rcases h (mt (word_eq_zero_iff _).mpr hpos.ne') haccept with ⟨hbw, hi⟩ | ⟨hbest, hworst⟩
  · refine Or.inl ⟨congrArg Fin.rev hbw, ?_⟩
    rw [bidWindow_indexOf, hi]
    rfl
  · refine Or.inr ⟨?_, ?_⟩
    · change 0 - p - (b.bidWindow 0).key b.bestBidIndex.rev < lobDepth
      rw [bidWindow_key]
      omega
    · change (b.bidWindow 0).key b.worstBidIndex.rev - (0 - p) < lobDepth
      rw [bidWindow_key]
      omega

theorem addUpdate_tight (b : OrderBook) (u : MarketUpdate) (hfits : b.UpdateFits u)
    (h : b.askWindow.Tight ∧ (b.bidWindow 0).Tight) :
    (b.addUpdate u).askWindow.Tight ∧ ((b.addUpdate u).bidWindow 0).Tight := by
  have hquantity : u.quantity.toInt ≠ 0 → u.quantity ≠ 0 := by
    intro hne hzero
    exact hne (by rw [hzero]; rfl)
  rw [addUpdate_askWindow, addUpdate_bidWindow]
  by_cases hsell : u.side = .sell
  · rw [if_pos hsell, if_pos hsell]
    refine ⟨?_, h.2⟩
    split
    · exact h.1.remove _ _
    · rename_i hq
      have hask := hfits.2 (hquantity hq)
      rw [if_pos hsell] at hask
      exact h.1.insert (by decide) _ _ _ _ hask.fits
  · rw [if_neg hsell, if_neg hsell]
    refine ⟨h.1, ?_⟩
    split
    · exact h.2.remove _ _
    · rename_i hq
      have hbid := hfits.2 (hquantity hq)
      rw [if_neg hsell] at hbid
      exact h.2.insert (by decide) _ _ _ _ hbid.fits

/-- In a run whose updates all fit, the representation invariant holds in every
state reached. -/
theorem repInvariant_of_fits (us : List MarketUpdate) (hfits : StepsMeet addUpdate UpdateFits {} us)
    (vs : List MarketUpdate) (hinit : vs <+: us) : RepInvariant (addUpdates {} vs) := by
  have h := foldl_invariant addUpdate_tight
    ⟨.of_empty fresh_askWindow_empty, .of_empty (fresh_bidWindow_empty 0)⟩ hfits hinit
  exact ⟨sideInvariant_asks h.1, sideInvariant_bids h.2⟩

/-- Asks on both sides of a multiple of 256 wrap round the ring and still fit. -/
theorem repInvariant_wrapped_asks :
    StepsMeet addUpdate UpdateFits {} [.new 0 .sell 256 1 0 0 0, .new 0 .sell 255 1 0 0 0,
        .new 0 .buy 250 1 0 0 0, .new 0 .sell 256 0 0 0 0] ∧
      RepInvariant (addUpdates {} [.new 0 .sell 256 1 0 0 0, .new 0 .sell 255 1 0 0 0,
        .new 0 .buy 250 1 0 0 0, .new 0 .sell 256 0 0 0 0]) :=
  ⟨by decide +kernel, repInvariant_of_fits _ (by decide +kernel) _ (List.prefix_refl _)⟩

/-- The second ask wraps to slot 255, so the guard on the worst index no longer
keeps the window within 256 ticks: the ask at 511 takes the slot of the best ask
at 255 and is counted as a sixth level. -/
theorem repInvariant_fails_on_collision :
    ¬ RepInvariant (addUpdates {} [.new 0 .sell 256 1 0 0 0, .new 0 .sell 255 1 0 0 0,
      .new 0 .sell 320 1 0 0 0, .new 0 .sell 384 1 0 0 0, .new 0 .sell 448 1 0 0 0,
      .new 0 .sell 511 1 0 0 0]) := by
  intro h
  have hcounted := h.asks.counted
  revert hcounted
  decide +kernel

end HftSystem.OrderBook
