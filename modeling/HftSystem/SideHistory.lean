import HftSystem.UpdateLaws
import HftSystem.BookMirror

/-!
What a side of the book remembers. A removal leaves the price of its level behind in
the slot, and the two sides share one object. Neither can be seen: a side depends only
on the updates for that side since it was last empty.
-/
namespace HftSystem.OrderBook

open CircularWindow Transitions

/-- Whether the update works on the side. -/
def forSide (s : Side) (u : MarketUpdate) : Bool := s = .sell ↔ u.side = .sell

/-! ### Agreement of two books on a side -/

section Agreement

variable {s : Side} {b b' : OrderBook} {u : MarketUpdate}

theorem window_congr (b : OrderBook) {s t : Side} (h : s = .sell ↔ t = .sell) :
    b.window s = b.window t := by
  unfold window
  exact if_congr h rfl rfl

theorem window_otherSide (b : OrderBook) (h : forSide s u = false) :
    (b.addUpdate u).window s = b.window s := by
  have hs : ¬ (s = .sell ↔ u.side = .sell) := of_decide_eq_false h
  unfold window
  by_cases hsell : s = .sell
  · have hu : u.side ≠ .sell := fun h' => hs ⟨fun _ => h', fun _ => hsell⟩
    rw [if_pos hsell, if_pos hsell, addUpdate_askWindow, if_neg hu]
  · have hu : u.side = .sell := by
      by_contra hne
      exact hs ⟨fun h' => absurd h' hsell, fun h' => absurd h' hne⟩
    rw [if_neg hsell, if_neg hsell, addUpdate_bidWindow, if_pos hu]

/-- The guards look only at the endpoints. -/
theorem accepts_agree (h : Window.Agree (b.window s) (b'.window s))
    (hpos : 0 < (b.window s).count) (p : ℤ) : b.accepts s p = b'.accepts s p := by
  obtain ⟨hbest, hkeyBest⟩ := h.best hpos
  obtain ⟨hworst, hkeyWorst⟩ := h.worst hpos
  rw [hbest] at hkeyBest
  rw [hworst] at hkeyWorst
  unfold window at hbest hkeyBest hworst hkeyWorst
  unfold accepts
  by_cases hs : s = .sell
  · simp only [if_pos hs] at hbest hkeyBest hworst hkeyWorst ⊢
    change b.bestAskIndex = b'.bestAskIndex at hbest
    change b.worstAskIndex = b'.worstAskIndex at hworst
    change (b.asks b'.bestAskIndex).price = (b'.asks b'.bestAskIndex).price at hkeyBest
    change (b.asks b'.worstAskIndex).price = (b'.asks b'.worstAskIndex).price at hkeyWorst
    simp only [askAccepts, hbest, hworst, hkeyBest, hkeyWorst]
  · simp only [if_neg hs] at hbest hkeyBest hworst hkeyWorst ⊢
    have hbest' : b.bestBidIndex = b'.bestBidIndex := Fin.rev_injective hbest
    have hworst' : b.worstBidIndex = b'.worstBidIndex := Fin.rev_injective hworst
    rw [← hbest, bidWindow_key_best, hbest, bidWindow_key_best] at hkeyBest
    rw [← hworst, bidWindow_key_worst, hworst, bidWindow_key_worst] at hkeyWorst
    have hpriceBest : (b.bids b.bestBidIndex).price = (b'.bids b'.bestBidIndex).price := by omega
    have hpriceWorst : (b.bids b.worstBidIndex).price = (b'.bids b'.worstBidIndex).price := by
      omega
    simp only [bidAccepts, hpriceBest, hpriceWorst]
    rw [hbest', hworst']

theorem agree_addUpdate (h : Window.Agree (b.window s) (b'.window s)) (hu : forSide s u = true) :
    Window.Agree ((b.addUpdate u).window s) ((b'.addUpdate u).window s) := by
  have hs : s = .sell ↔ u.side = .sell := of_decide_eq_true hu
  rw [window_congr _ hs, window_congr _ hs] at h ⊢
  rw [addUpdate_window, addUpdate_window]
  split
  · exact h.remove _ _ _
  · by_cases hzero : (b.window u.side).count = 0
    · rw [insert_of_count_zero hzero _ (b'.accepts u.side u.price.toInt)]
      exact h.insert _ _ _ _ _
    · rw [accepts_agree h (Nat.pos_of_ne_zero hzero)]
      exact h.insert _ _ _ _ _

/-- Of a run only the updates for the side count. -/
theorem agree_filter (us : List MarketUpdate) (h : Window.Agree (b.window s) (b'.window s)) :
    Window.Agree ((b.addUpdates us).window s)
      ((b'.addUpdates (us.filter (forSide s))).window s) := by
  induction us generalizing b b' with
  | nil => exact h
  | cons u us ih =>
    cases hu : forSide s u with
    | true =>
      rw [List.filter_cons_of_pos hu, addUpdates_cons, addUpdates_cons]
      exact ih (agree_addUpdate h hu)
    | false =>
      rw [List.filter_cons_of_neg (by rw [hu]; exact Bool.false_ne_true), addUpdates_cons]
      apply ih
      rw [window_otherSide b hu]
      exact h

theorem agree_addUpdates {us us' : List MarketUpdate}
    (h : Window.Agree (b.window s) (b'.window s))
    (hus : us.filter (forSide s) = us'.filter (forSide s)) :
    Window.Agree ((b.addUpdates us).window s) ((b'.addUpdates us').window s) := by
  have hleft := agree_filter us h
  have hright := agree_filter us' (h.symm.trans h)
  rw [← hus] at hright
  exact hleft.trans hright.symm

end Agreement

/-! ### What can be seen of a side -/

/-- The two sides have the same levels in the same slots, and the same endpoints. -/
structure Alike (S S' : BookSide) : Prop where
  count : S.count = S'.count
  active : ∀ i, S.Active i ↔ S'.Active i
  level : ∀ i, S.Active i → S.levels i = S'.levels i
  best : S.count ≠ 0 → S.best = S'.best ∧ S.levels S.best = S'.levels S'.best
  worst : S.count ≠ 0 → S.worst = S'.worst ∧ S.levels S.worst = S'.levels S'.worst

section Seen

variable {s : Side} {b b' : OrderBook}

theorem level_window (b : OrderBook) (s : Side) (i : Fin lobDepth) :
    (b.side s).levels i = ⟨keyOf s ((b.window s).key (mirror s i)),
      ((b.window s).slot (mirror s i)).value, ((b.window s).slot (mirror s i)).active⟩ := by
  rw [← ofWindow_window]
  rfl

theorem level_agree (h : Window.Agree (b.window s) (b'.window s)) {i : Fin lobDepth}
    (hi : (b.side s).Active i) : (b.side s).levels i = (b'.side s).levels i := by
  have hslot := h.level _ ((active_iff b s i).mp hi)
  rw [level_window, level_window]
  unfold Window.key
  rw [hslot]

/-- Of a free slot at an endpoint the price is in the window and the quantity is zero. -/
theorem level_agree_of_key (h : Window.Agree (b.window s) (b'.window s))
    (hblank : Blank (b.side s)) (hblank' : Blank (b'.side s)) {i : Fin lobDepth}
    (hkey : (b.window s).key (mirror s i) = (b'.window s).key (mirror s i)) :
    (b.side s).levels i = (b'.side s).levels i := by
  by_cases hi : (b.side s).Active i
  · exact level_agree h hi
  · have hactive := h.active (mirror s i)
    have hi' : ¬ (b'.side s).Active i := by
      rw [active_iff] at hi ⊢
      unfold Window.Active at hi ⊢
      rwa [← hactive]
    have hquantity := hblank i hi
    have hquantity' := hblank' i hi'
    rw [level_window] at hquantity hquantity' ⊢
    rw [level_window]
    rw [PriceLevel.mk.injEq]
    exact ⟨congrArg (keyOf s) hkey, hquantity.trans hquantity'.symm, hactive⟩

theorem alike_of_agree (h : Window.Agree (b.window s) (b'.window s))
    (hblank : Blank (b.side s)) (hblank' : Blank (b'.side s)) :
    Alike (b.side s) (b'.side s) := by
  have hends : ∀ {i j : Fin lobDepth},
      i = j ∧ (b.window s).key i = (b'.window s).key i →
      mirror s i = mirror s j ∧
        (b.side s).levels (mirror s i) = (b'.side s).levels (mirror s j) := by
    rintro i j ⟨rfl, hkey⟩
    refine ⟨rfl, level_agree_of_key h hblank hblank' ?_⟩
    rw [mirror_mirror]
    exact hkey
  have hside := ofWindow_window s b
  have hside' := ofWindow_window s b'
  have hpos : (b.side s).count ≠ 0 → 0 < (b.window s).count := by
    intro hne
    rw [window_count]
    exact Nat.pos_of_ne_zero (mt (word_eq_zero_iff _).mp hne)
  refine ⟨?_, fun i => ?_, fun i hi => level_agree h hi, fun hne => ?_, fun hne => ?_⟩
  · rw [← hside, ← hside']
    exact congrArg Int32.ofNat h.count
  · rw [active_iff, active_iff]
    unfold Window.Active
    rw [h.active]
  · have hbest : (b.side s).best = mirror s (b.window s).best := by rw [← hside]; rfl
    have hbest' : (b'.side s).best = mirror s (b'.window s).best := by rw [← hside']; rfl
    rw [hbest, hbest']
    exact hends (h.best (hpos hne))
  · have hworst : (b.side s).worst = mirror s (b.window s).worst := by rw [← hside]; rfl
    have hworst' : (b'.side s).worst = mirror s (b'.window s).worst := by rw [← hside']; rfl
    rw [hworst, hworst']
    exact hends (h.worst (hpos hne))

/-- The walk of `getMidRaw` looks only at active levels. -/
theorem midLoop_congr {levels levels' : Fin lobDepth → PriceLevel}
    (hactive : ∀ i, (levels i).isActive = (levels' i).isActive)
    (hlevel : ∀ i, (levels i).isActive = true → levels i = levels' i)
    (next : Fin lobDepth → Fin lobDepth) (steps : ℕ) (idx : Fin lobDepth) (found : ℕ)
    (sum vol : ℤ) :
    midLoop levels next steps idx found sum vol = midLoop levels' next steps idx found sum vol := by
  induction steps generalizing idx found sum vol with
  | zero => rfl
  | succ steps ih =>
    unfold midLoop
    rw [← hactive]
    split
    · split
      · rename_i hidx
        rw [hlevel idx hidx]
        exact ih _ _ _ _
      · exact ih _ _ _ _
    · rfl

theorem Alike.midLoop_eq {S S' : BookSide} (h : Alike S S') (hrested : Rested S)
    (hrested' : Rested S') (next : Fin lobDepth → Fin lobDepth) :
    midLoop S.levels next lobDepth S.best 0 0 0 =
      midLoop S'.levels next lobDepth S'.best 0 0 0 := by
  have hbest : S.best = S'.best := by
    by_cases hzero : S.count = 0
    · rw [hrested hzero, hrested' (h.count ▸ hzero)]
    · exact (h.best hzero).1
  rw [hbest]
  exact midLoop_congr (fun i => Bool.eq_iff_iff.mpr (h.active i)) h.level next _ _ _ _ _

end Seen

/-! ### Books with a past -/

/-- The counter of the side is 0 after the run. -/
def EmptyAfter (us : List MarketUpdate) (s : Side) : Prop := ((addUpdates {} us).side s).count = 0

instance (us : List MarketUpdate) (s : Side) : Decidable (EmptyAfter us s) :=
  inferInstanceAs (Decidable (_ = _))

theorem EmptyAfter.window_empty {us : List MarketUpdate} {s : Side} (h : EmptyAfter us s)
    (hfits : StepsMeet addUpdate CounterFits {} us) : ((addUpdates {} us).window s).Empty := by
  have hcounted : (addUpdates {} us).Counted := ⟨us, hfits, rfl⟩
  refine ⟨?_, fun i hi => ?_⟩
  · rw [window_count]
    exact (word_eq_zero_iff _).mpr h
  · have hfree := (hcounted.lookupSound s).empty h (mirror s i)
    rw [level_window, mirror_mirror] at hfree
    exact absurd (hfree.symm.trans hi) Bool.false_ne_true

/-- What a side shows after a defined run depends only on the updates for it since its counter was
last 0: two runs that have brought it to 0 and then give the side the same updates leave it alike,
whatever came before and whatever comes between for the other side. The same holds of the mid price
and both sides. -/
theorem history_forgotten (us us' vs vs' : List MarketUpdate)
    (hdef : StepsMeet addUpdate Defined {} (us ++ vs))
    (hdef' : StepsMeet addUpdate Defined {} (us' ++ vs')) :
    (∀ s, EmptyAfter us s → EmptyAfter us' s →
        vs.filter (forSide s) = vs'.filter (forSide s) →
        Alike ((addUpdates {} (us ++ vs)).side s) ((addUpdates {} (us' ++ vs')).side s)) ∧
      ((∀ s, EmptyAfter us s ∧ EmptyAfter us' s ∧
          vs.filter (forSide s) = vs'.filter (forSide s)) →
        (addUpdates {} (us ++ vs)).getMidRaw = (addUpdates {} (us' ++ vs')).getMidRaw) := by
  have hfits : StepsMeet addUpdate CounterFits {} (us ++ vs) :=
    hdef.mono fun _ _ h => h.counterFits
  have hfits' : StepsMeet addUpdate CounterFits {} (us' ++ vs') :=
    hdef'.mono fun _ _ h => h.counterFits
  have hside : ∀ s, EmptyAfter us s → EmptyAfter us' s →
      vs.filter (forSide s) = vs'.filter (forSide s) →
      Alike ((addUpdates {} (us ++ vs)).side s) ((addUpdates {} (us' ++ vs')).side s) := by
    intro s hempty hempty' hsame
    apply alike_of_agree
    · have hagree : Window.Agree ((addUpdates {} us).window s) ((addUpdates {} us').window s) :=
        .of_empty (hempty.window_empty hfits.left) (hempty'.window_empty hfits'.left)
      have hrun := agree_addUpdates hagree hsame
      unfold addUpdates at hrun ⊢
      rwa [List.foldl_append, List.foldl_append]
    · exact addUpdates_blank (us ++ vs) s
    · exact addUpdates_blank (us' ++ vs') s
  refine ⟨hside, fun hboth => ?_⟩
  have hmid : ∀ s next, midLoop ((addUpdates {} (us ++ vs)).side s).levels next lobDepth
      ((addUpdates {} (us ++ vs)).side s).best 0 0 0 =
        midLoop ((addUpdates {} (us' ++ vs')).side s).levels next lobDepth
          ((addUpdates {} (us' ++ vs')).side s).best 0 0 0 := by
    intro s next
    obtain ⟨hempty, hempty', hsame⟩ := hboth s
    exact (hside s hempty hempty' hsame).midLoop_eq (addUpdates_rested hfits s)
      (addUpdates_rested hfits' s) next
  have hasks := hmid .sell (fun idx => slotAfter idx 1)
  have hbids := hmid .buy (fun idx => slotBefore idx 1)
  unfold getMidRaw
  unfold side at hasks hbids
  simp only [reduceCtorEq, if_true, if_false] at hasks hbids
  rw [hasks, hbids]

/-- An ask that came and went, and a bid before or after an ask. -/
theorem history_forgotten_two_orders :
    (addUpdates {} ([.new 0 .sell 256 1 0 0 0, .new 0 .sell 256 0 0 0 0] ++
      [.new 0 .buy 299 2 0 0 0, .new 0 .sell 300 4 0 0 0])).getMidRaw =
    (addUpdates {} ([] ++ [.new 0 .sell 300 4 0 0 0, .new 0 .buy 299 2 0 0 0])).getMidRaw := by
  refine (history_forgotten [.new 0 .sell 256 1 0 0 0, .new 0 .sell 256 0 0 0 0] []
    [.new 0 .buy 299 2 0 0 0, .new 0 .sell 300 4 0 0 0]
    [.new 0 .sell 300 4 0 0 0, .new 0 .buy 299 2 0 0 0] (by decide +kernel)
    (by decide +kernel)).2 (fun s => ?_)
  cases s <;> decide +kernel

end HftSystem.OrderBook
