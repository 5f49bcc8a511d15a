import HftSystem.BookInvariants

/-!
What one update does to the side of the book that it is for. An add is stored in
a slot or dropped; a removal clears a slot or finds none. The condition that
decides is stated on the book before the update, and holds or fails in every
reachable book.
-/
namespace HftSystem.OrderBook

open TwosComplement CircularWindow Transitions

/-! ### One side -/

structure BookSide where
  levels : Fin lobDepth → PriceLevel
  best : Fin lobDepth
  worst : Fin lobDepth
  count : Int32

namespace BookSide

def store (S : BookSide) (i : Fin lobDepth) (p q : ℤ) (best worst : Fin lobDepth)
    (count : Int32) : BookSide :=
  ⟨Function.update S.levels i ⟨p, q, true⟩, best, worst, count⟩

/-- The price of a cleared level stays behind. -/
def clear (S : BookSide) (i best worst : Fin lobDepth) : BookSide :=
  ⟨Function.update S.levels i { S.levels i with isActive := false, quantity := 0 }, best, worst,
    S.count - 1⟩

def Active (S : BookSide) (i : Fin lobDepth) : Prop := (S.levels i).isActive = true

instance (S : BookSide) (i : Fin lobDepth) : Decidable (S.Active i) :=
  inferInstanceAs (Decidable (_ = _))

section Levels

variable (S : BookSide) (i best worst : Fin lobDepth) (p q : ℤ) (count : Int32)

@[simp] theorem levels_store_self :
    (S.store i p q best worst count).levels i = ⟨p, q, true⟩ := Function.update_self _ _ _

theorem levels_store_of_ne {j : Fin lobDepth} (hji : j ≠ i) :
    (S.store i p q best worst count).levels j = S.levels j := Function.update_of_ne hji _ _

@[simp] theorem levels_clear_self :
    (S.clear i best worst).levels i = { S.levels i with isActive := false, quantity := 0 } :=
  Function.update_self _ _ _

theorem levels_clear_of_ne {j : Fin lobDepth} (hji : j ≠ i) :
    (S.clear i best worst).levels j = S.levels j := Function.update_of_ne hji _ _

end Levels

end BookSide

/-- The side that `addUpdate` works on: whatever is not a sell is a bid. -/
def side (b : OrderBook) (s : Side) : BookSide :=
  if s = .sell then ⟨b.asks, b.bestAskIndex, b.worstAskIndex, b.numOfAsks⟩
  else ⟨b.bids, b.bestBidIndex, b.worstBidIndex, b.numOfBids⟩

def slotOf (b : OrderBook) (s : Side) (p : ℤ) : Fin lobDepth := b.priceToIndex p (s ≠ .sell)

/-- The guards of the branch that an add to a non-empty side takes. -/
def accepts (b : OrderBook) (s : Side) (p : ℤ) : Bool :=
  if s = .sell then b.askAccepts p else b.bidAccepts p

def Better (s : Side) (p r : ℤ) : Prop := if s = .sell then p < r else r < p

/-- Everything that an update can do to its side. -/
inductive Edit (b : OrderBook) (u : MarketUpdate) : BookSide → Prop
  | first (hq : u.quantity.toInt ≠ 0) (hcount : (b.side u.side).count = 0) :
      Edit b u ((b.side u.side).store (firstIndex u.price.toInt) u.price.toInt u.quantity.toInt
        (firstIndex u.price.toInt) (firstIndex u.price.toInt) 1)
  | dropped (hq : u.quantity.toInt ≠ 0) (hcount : (b.side u.side).count ≠ 0)
      (hreject : b.accepts u.side u.price.toInt = false) : Edit b u (b.side u.side)
  | stored (hq : u.quantity.toInt ≠ 0) (hcount : (b.side u.side).count ≠ 0)
      (haccept : b.accepts u.side u.price.toInt = true) {best worst : Fin lobDepth} {count : Int32}
      (hmove : count = (b.side u.side).count ∨ count = (b.side u.side).count + 1)
      (hbest : Better u.side u.price.toInt ((b.side u.side).levels (b.side u.side).best).price →
        best = b.slotOf u.side u.price.toInt) :
      Edit b u ((b.side u.side).store (b.slotOf u.side u.price.toInt) u.price.toInt
        u.quantity.toInt best worst count)
  | absent (hq : u.quantity.toInt = 0)
      (h : (b.side u.side).count = 0 ∨ ¬ (b.side u.side).Active (b.slotOf u.side u.price.toInt)) :
      Edit b u (b.side u.side)
  | removed (hq : u.quantity.toInt = 0) (hcount : (b.side u.side).count ≠ 0)
      (hactive : (b.side u.side).Active (b.slotOf u.side u.price.toInt)) {best worst : Fin lobDepth}
      (hlast : (b.side u.side).count = 1 → best = 0) :
      Edit b u ((b.side u.side).clear (b.slotOf u.side u.price.toInt) best worst)

/-! ### Sides and windows -/

/-- The window of a side, with the negated prices as the keys of the bids. -/
def window (b : OrderBook) (s : Side) : Window lobDepth ℤ :=
  if s = .sell then b.askWindow else b.bidWindow 0

def mirror (s : Side) (i : Fin lobDepth) : Fin lobDepth := if s = .sell then i else i.rev

def keyOf (s : Side) (p : ℤ) : ℤ := if s = .sell then p else 0 - p

def ofWindow (s : Side) (w : Window lobDepth ℤ) : BookSide where
  levels i := ⟨keyOf s (w.slot (mirror s i)).key, (w.slot (mirror s i)).value,
    (w.slot (mirror s i)).active⟩
  best := mirror s w.best
  worst := mirror s w.worst
  count := Int32.ofNat w.count

section Windows

variable (s : Side)

theorem mirror_mirror (i : Fin lobDepth) : mirror s (mirror s i) = i := by
  unfold mirror
  split
  · rfl
  · exact Fin.rev_rev i

theorem mirror_eq_iff (i j : Fin lobDepth) : mirror s i = j ↔ i = mirror s j := by
  constructor
  · rintro rfl
    exact (mirror_mirror s i).symm
  · rintro rfl
    exact mirror_mirror s j

theorem keyOf_keyOf (p : ℤ) : keyOf s (keyOf s p) = p := by
  unfold keyOf
  split <;> omega

theorem ofWindow_window (b : OrderBook) : ofWindow s (b.window s) = b.side s := by
  unfold ofWindow window side mirror keyOf
  by_cases hs : s = .sell
  · simp only [if_pos hs, askWindow_count, ofNat_word]
    rfl
  · simp [if_neg hs, bidWindow, ofNat_word]

theorem window_count (b : OrderBook) : (b.window s).count = word (b.side s).count := by
  unfold window side
  by_cases hs : s = .sell
  · rw [if_pos hs, if_pos hs, askWindow_count]
  · rw [if_neg hs, if_neg hs, bidWindow_count]

theorem window_indexOf (b : OrderBook) (p : ℤ) :
    (b.window s).indexOf (keyOf s p) = mirror s (b.slotOf s p) := by
  unfold window keyOf mirror slotOf
  by_cases hs : s = .sell
  · simp only [if_pos hs, askWindow_indexOf]
    simp [hs]
  · simp only [if_neg hs, bidWindow_indexOf]
    simp [hs]

variable (w : Window lobDepth ℤ) (i : Fin lobDepth) (p q : ℤ) (best worst : Fin lobDepth)
  (count : ℕ)

theorem ofWindow_write :
    ofWindow s (w.write (mirror s i) (keyOf s p) q best worst count) =
      (ofWindow s w).store i p q (mirror s best) (mirror s worst) (Int32.ofNat count) := by
  simp only [ofWindow, Window.write, BookSide.store, BookSide.mk.injEq, and_true]
  funext j
  by_cases hji : j = i
  · subst hji
    simp [keyOf_keyOf]
  · have hmirror : mirror s j ≠ mirror s i := by
      rw [ne_eq, mirror_eq_iff, mirror_mirror]
      exact hji
    simp [Function.update_of_ne hji, Function.update_of_ne hmirror]

theorem ofWindow_clear {counter : Int32} (hcount : w.count = word counter) (hne : counter ≠ 0) :
    ofWindow s ((w.clear (mirror s i)).withEnds best worst) =
      (ofWindow s w).clear i (mirror s best) (mirror s worst) := by
  simp only [ofWindow, Window.clear, Window.withEnds, BookSide.clear, BookSide.mk.injEq, hcount,
    ← word_sub_one hne, ofNat_word, and_true]
  funext j
  by_cases hji : j = i
  · subst hji
    simp
  · have hmirror : mirror s j ≠ mirror s i := by
      rw [ne_eq, mirror_eq_iff, mirror_mirror]
      exact hji
    simp [Function.update_of_ne hji, Function.update_of_ne hmirror]

end Windows

/-! ### Updates -/

section Updates

variable (b : OrderBook) (u : MarketUpdate)

theorem addUpdate_window :
    (b.addUpdate u).window u.side =
      if u.quantity.toInt = 0 then
        (b.window u.side).remove (mirror u.side 0) (keyOf u.side u.price.toInt)
      else (b.window u.side).insert wordSize (b.accepts u.side u.price.toInt)
        (mirror u.side (firstIndex u.price.toInt)) (keyOf u.side u.price.toInt)
        u.quantity.toInt := by
  unfold window mirror keyOf accepts
  by_cases hs : u.side = .sell
  · simp only [if_pos hs, addUpdate_askWindow]
  · simp only [if_neg hs, addUpdate_bidWindow]

/-- An update for one side leaves the other side as it is. -/
theorem addUpdate_otherSide {s : Side} (hs : ¬ (s = .sell ↔ u.side = .sell)) :
    (b.addUpdate u).side s = b.side s := by
  rw [← ofWindow_window, ← ofWindow_window]
  congr 1
  unfold window
  by_cases hsell : s = .sell
  · have hu : u.side ≠ .sell := fun h => hs ⟨fun _ => h, fun _ => hsell⟩
    rw [if_pos hsell, if_pos hsell, addUpdate_askWindow, if_neg hu]
  · have hu : u.side = .sell := by
      by_contra h
      exact hs ⟨fun h' => absurd h' hsell, fun h' => absurd h' h⟩
    rw [if_neg hsell, if_neg hsell, addUpdate_bidWindow, if_pos hu]

/-- A price between the endpoints passes the guards. -/
theorem accepts_inside {s : Side} {p : ℤ} (hbw : (b.window s).best ≠ (b.window s).worst)
    (hlow : (b.window s).key (b.window s).best ≤ keyOf s p)
    (hhigh : keyOf s p ≤ (b.window s).key (b.window s).worst) : b.accepts s p = true := by
  unfold accepts
  unfold window keyOf at hlow hhigh
  unfold window at hbw
  by_cases hs : s = .sell
  · simp only [if_pos hs] at hbw hlow hhigh ⊢
    change b.bestAskIndex ≠ b.worstAskIndex at hbw
    change (b.asks b.bestAskIndex).price ≤ p at hlow
    change p ≤ (b.asks b.worstAskIndex).price at hhigh
    simp only [askAccepts]
    rw [if_neg hbw, if_neg (by omega), if_neg (by omega)]
  · simp only [if_neg hs] at hbw hlow hhigh ⊢
    rw [bidWindow_key_best] at hlow
    rw [bidWindow_key_worst] at hhigh
    have hbw' : b.bestBidIndex ≠ b.worstBidIndex := fun h => hbw (congrArg Fin.rev h)
    simp only [bidAccepts]
    rw [if_neg hbw', if_neg (by omega), if_neg (by omega)]

theorem better_iff (s : Side) (p : ℤ) :
    Better s p ((b.side s).levels (b.side s).best).price ↔
      keyOf s p < (b.window s).key (b.window s).best := by
  unfold Better keyOf window side
  by_cases hs : s = .sell
  · simp only [if_pos hs]
    rfl
  · simp only [if_neg hs, bidWindow_key_best]
    omega

theorem active_iff (s : Side) (i : Fin lobDepth) :
    (b.side s).Active i ↔ (b.window s).Active (mirror s i) := by
  rw [← ofWindow_window]
  exact Iff.rfl

theorem addUpdate_edit_add (hq : u.quantity.toInt ≠ 0) :
    Edit b u ((b.addUpdate u).side u.side) := by
  have hwindow := addUpdate_window b u
  rw [if_neg hq] at hwindow
  rw [← ofWindow_window, hwindow]
  have hcount := window_count u.side b
  by_cases hzero : (b.side u.side).count = 0
  · have hempty : (b.window u.side).count = 0 := hcount.trans ((word_eq_zero_iff _).mpr hzero)
    rw [Window.insert, if_pos hempty, ofWindow_write, ofWindow_window, mirror_mirror, hempty]
    exact .first hq hzero
  have hpos : 0 < (b.window u.side).count := by
    rw [hcount]
    exact Nat.pos_of_ne_zero (mt (word_eq_zero_iff _).mp hzero)
  cases haccept : b.accepts u.side u.price.toInt with
  | false =>
    rw [Window.insert_rejected _ _ _ _ hpos, ofWindow_window]
    · exact .dropped hq hzero haccept
    · rintro hbw ⟨hlow, hhigh⟩
      rw [accepts_inside b hbw hlow hhigh] at haccept
      contradiction
  | true =>
    obtain ⟨best, worst, count, hmove, hinsert⟩ := Window.insert_accepted wordSize
      (mirror u.side (firstIndex u.price.toInt)) (b.window u.side) (keyOf u.side u.price.toInt)
      u.quantity.toInt hpos
    have hbest := Window.insert_best wordSize (mirror u.side (firstIndex u.price.toInt))
      (b.window u.side) (p := keyOf u.side u.price.toInt) u.quantity.toInt hpos
    rw [hinsert, window_indexOf] at hbest
    rw [hinsert, window_indexOf, ofWindow_write, ofWindow_window]
    refine .stored hq hzero haccept ?_ ?_
    · rw [hcount, ← word_add_one] at hmove
      rcases hmove with rfl | rfl
      · exact Or.inl (ofNat_word _)
      · exact Or.inr (ofNat_word _)
    · intro hbetter
      rw [mirror_eq_iff]
      exact hbest ((better_iff b u.side _).mp hbetter)

/-- To clear a slot of a side with more levels is an edit, whatever the endpoints are then. -/
theorem edit_clear_of_many (hq : u.quantity.toInt = 0) (hmany : 1 < (b.window u.side).count)
    (hactive : (b.window u.side).Active (mirror u.side (b.slotOf u.side u.price.toInt)))
    (best worst : Fin lobDepth) :
    Edit b u (ofWindow u.side (((b.window u.side).clear
      (mirror u.side (b.slotOf u.side u.price.toInt))).withEnds best worst)) := by
  have hcount := window_count u.side b
  have hne : (b.side u.side).count ≠ 0 := by
    intro hzero
    rw [hcount, hzero] at hmany
    exact absurd hmany (by decide)
  rw [ofWindow_clear _ _ _ _ _ hcount hne, ofWindow_window]
  refine .removed hq hne ((active_iff b _ _).mpr hactive) (fun hone => ?_)
  rw [hcount, hone] at hmany
  exact absurd hmany (by decide)

theorem addUpdate_edit_remove (hq : u.quantity.toInt = 0) :
    Edit b u ((b.addUpdate u).side u.side) := by
  have hwindow := addUpdate_window b u
  rw [if_pos hq] at hwindow
  rw [← ofWindow_window, hwindow]
  have hcount := window_count u.side b
  have hspec := Window.remove_spec (mirror u.side 0) (b.window u.side)
    (keyOf u.side u.price.toInt)
  rw [window_indexOf] at hspec
  generalize (b.window u.side).remove (mirror u.side 0) (keyOf u.side u.price.toInt) = w' at hspec
  cases hspec with
  | absent h =>
    rw [ofWindow_window]
    rw [hcount, word_eq_zero_iff, ← active_iff] at h
    exact .absent hq h
  | last hactive hone =>
    have hne : (b.side u.side).count ≠ 0 := by
      intro hzero
      rw [hcount, hzero] at hone
      exact absurd hone (by decide)
    rw [ofWindow_clear _ _ _ _ _ hcount hne, ofWindow_window]
    exact .removed hq hne ((active_iff b _ _).mpr hactive) (fun _ => mirror_mirror _ 0)
  | best hactive hmany hi => exact edit_clear_of_many b u hq hmany hactive _ _
  | worst hactive hmany hb hi => exact edit_clear_of_many b u hq hmany hactive _ _
  | inner hactive hmany hb hw => exact edit_clear_of_many b u hq hmany hactive _ _

theorem addUpdate_edit : Edit b u ((b.addUpdate u).side u.side) := by
  by_cases hq : u.quantity.toInt = 0
  · exact addUpdate_edit_remove b u hq
  · exact addUpdate_edit_add b u hq

end Updates

end HftSystem.OrderBook
