import HftSystem.WindowInvariants

/-!
Two circular windows that agree wherever an operation can look: the counter,
the active slots, and, while the counter is positive, the endpoints with the
keys behind them. What lies in inactive slots elsewhere does not matter, and
neither do the endpoints of an empty window. Every operation keeps agreement.
-/
namespace HftSystem.CircularWindow.Window

variable {n : ℕ} {V : Type*} {w w' : Window n V}

structure Agree (w w' : Window n V) : Prop where
  count : w.count = w'.count
  active : ∀ i, (w.slot i).active = (w'.slot i).active
  level : ∀ i, w.Active i → w.slot i = w'.slot i
  best : 0 < w.count → w.best = w'.best ∧ w.key w.best = w'.key w.best
  worst : 0 < w.count → w.worst = w'.worst ∧ w.key w.worst = w'.key w.worst

namespace Agree

theorem of_empty (h : w.Empty) (h' : w'.Empty) : Agree w w' where
  count := h.1.trans h'.1.symm
  active i := by
    have hi := h.2 i
    have hi' := h'.2 i
    simp only [Active, Bool.not_eq_true] at hi hi'
    rw [hi, hi']
  level i hi := absurd hi (h.2 i)
  best hpos := by
    rw [h.1] at hpos
    omega
  worst hpos := by
    rw [h.1] at hpos
    omega

theorem symm (h : Agree w w') : Agree w' w where
  count := h.count.symm
  active i := (h.active i).symm
  level i hi := (h.level i ((h.active i).trans hi)).symm
  best hpos := by
    obtain ⟨hbest, hkey⟩ := h.best (h.count.symm ▸ hpos)
    exact ⟨hbest.symm, hbest ▸ hkey.symm⟩
  worst hpos := by
    obtain ⟨hworst, hkey⟩ := h.worst (h.count.symm ▸ hpos)
    exact ⟨hworst.symm, hworst ▸ hkey.symm⟩

theorem trans {w'' : Window n V} (h : Agree w w') (h' : Agree w' w'') : Agree w w'' where
  count := h.count.trans h'.count
  active i := (h.active i).trans (h'.active i)
  level i hi := (h.level i hi).trans (h'.level i ((h.active i).symm.trans hi))
  best hpos := by
    obtain ⟨hbest, hkey⟩ := h.best hpos
    obtain ⟨hbest', hkey'⟩ := h'.best (h.count ▸ hpos)
    exact ⟨hbest.trans hbest', hkey.trans (hbest ▸ hkey')⟩
  worst hpos := by
    obtain ⟨hworst, hkey⟩ := h.worst hpos
    obtain ⟨hworst', hkey'⟩ := h'.worst (h.count ▸ hpos)
    exact ⟨hworst.trans hworst', hkey.trans (hworst ▸ hkey')⟩

theorem scan_eq (h : ∀ i, (w.slot i).active = (w'.slot i).active) (cand : ℕ → Fin n) :
    w.scan cand = w'.scan cand := by
  unfold scan
  simp only [h]

theorem key_write (i b : Fin n) (p : ℤ) (v : V) (best worst : Fin n) (count : ℕ)
    (hb : b = i ∨ w.key b = w'.key b) :
    (w.write i p v best worst count).key b = (w'.write i p v best worst count).key b := by
  by_cases hbi : b = i
  · subst hbi
    rw [key_write_self, key_write_self]
  · rw [key_write_of_ne _ _ _ _ _ _ _ _ hbi, key_write_of_ne _ _ _ _ _ _ _ _ hbi]
    exact hb.resolve_left hbi

theorem write (h : Agree w w') (i : Fin n) (p : ℤ) (v : V) {b e : Fin n} (count : ℕ)
    (hb : b = i ∨ w.key b = w'.key b) (he : e = i ∨ w.key e = w'.key e) :
    Agree (w.write i p v b e count) (w'.write i p v b e count) where
  count := rfl
  active j := by
    by_cases hji : j = i
    · subst hji
      simp [Window.write]
    · simpa [Window.write, hji] using h.active j
  level j hj := by
    by_cases hji : j = i
    · subst hji
      simp [Window.write]
    · rw [active_write] at hj
      simpa [Window.write, hji] using h.level j (hj.resolve_left hji)
  best _ := ⟨rfl, key_write i b p v b e count hb⟩
  worst _ := ⟨rfl, key_write i e p v b e count he⟩

theorem clear [Zero V] (h : Agree w w') (i : Fin n) {b e : Fin n}
    (hb : w.key b = w'.key b) (he : w.key e = w'.key e) :
    Agree ((w.clear i).withEnds b e) ((w'.clear i).withEnds b e) where
  count := congrArg (· - 1) h.count
  active j := by
    by_cases hji : j = i
    · subst hji
      simp [Window.clear, withEnds]
    · simpa [Window.clear, withEnds, hji] using h.active j
  level j hj := by
    obtain ⟨hji, hactive⟩ := (active_clear w i j).mp hj
    simpa [Window.clear, withEnds, hji] using h.level j hactive
  best _ := ⟨rfl, ((key_clear w i b).trans hb).trans (key_clear w' i b).symm⟩
  worst _ := ⟨rfl, ((key_clear w i e).trans he).trans (key_clear w' i e).symm⟩

theorem key_eq (h : Agree w w') {i : Fin n} (hi : w.Active i) : w.key i = w'.key i := by
  unfold key
  rw [h.level i hi]

/-- An endpoint found by a scan, or kept because the scan found nothing, has the
same key in both windows. -/
theorem key_scan [Zero V] (h : Agree w w') (i : Fin n) (cand : ℕ → Fin n) {old : Fin n}
    (hold : w.key old = w'.key old) :
    w.key (((w.clear i).scan cand).getD old) = w'.key (((w.clear i).scan cand).getD old) := by
  cases hscan : (w.clear i).scan cand with
  | none => exact hold
  | some c => exact h.key_eq ((active_clear w i c).mp (scan_active hscan)).2

variable [NeZero n]

theorem indexOf_eq (h : Agree w w') (hpos : 0 < w.count) (p : ℤ) :
    w.indexOf p = w'.indexOf p := by
  obtain ⟨hbest, hkey⟩ := h.best hpos
  unfold indexOf
  rw [← hbest, hkey]

theorem insertSingle (h : Agree w w') (m : ℕ) (hpos : 0 < w.count) (hbw : w.best = w.worst) (p : ℤ)
    (v : V) : Agree (w.insertSingle m p v) (w'.insertSingle m p v) := by
  obtain ⟨hbest, hkeyBest⟩ := h.best hpos
  obtain ⟨hworst, hkeyWorst⟩ := h.worst hpos
  have hbw' : w'.best = w'.worst := hbest.symm.trans (hbw.trans hworst)
  rw [insertSingle_eq m w p v hbw, insertSingle_eq m w' p v hbw', ← h.count, ← hbest, ← hworst,
    ← hkeyBest, ← h.indexOf_eq hpos p]
  split
  · exact h.write _ p v _ (Or.inl rfl) (Or.inl rfl)
  split
  · exact h.write _ p v _ (Or.inl rfl) (Or.inr hkeyWorst)
  · exact h.write _ p v _ (Or.inr hkeyBest) (Or.inl rfl)

theorem insert (h : Agree w w') (m : ℕ) (accept : Bool) (first : Fin n) (p : ℤ) (v : V) :
    Agree (w.insert m accept first p v) (w'.insert m accept first p v) := by
  by_cases hzero : w.count = 0
  · unfold Window.insert
    rw [if_pos hzero, if_pos (h.count ▸ hzero), h.count]
    exact h.write first p v _ (Or.inl rfl) (Or.inl rfl)
  have hpos : 0 < w.count := Nat.pos_of_ne_zero hzero
  obtain ⟨hbest, hkeyBest⟩ := h.best hpos
  obtain ⟨hworst, hkeyWorst⟩ := h.worst hpos
  have hindex := h.indexOf_eq hpos p
  unfold Window.insert
  rw [← h.count, ← hbest, ← hworst, ← hkeyBest, ← hkeyWorst, ← hindex, ← h.active]
  rw [if_neg hzero, if_neg hzero]
  split
  · rename_i hbw
    split
    · exact h.insertSingle m hpos hbw p v
    · exact h
  split
  · exact h.write _ p v _ (Or.inr hkeyBest) (Or.inr hkeyWorst)
  split
  · split
    · exact h.write _ p v _ (Or.inl rfl) (Or.inr hkeyWorst)
    · exact h
  · split
    · exact h.write _ p v _ (Or.inr hkeyBest) (Or.inl rfl)
    · exact h

theorem erase [Zero V] (h : Agree w w') (hcount : 0 < w.count) (rest rest' i : Fin n) :
    Agree (w.erase rest i) (w'.erase rest' i) := by
  obtain ⟨hbest, hkeyBest⟩ := h.best hcount
  obtain ⟨hworst, hkeyWorst⟩ := h.worst hcount
  have hclear :
      Agree ((w.clear i).withEnds w.best w.worst) ((w'.clear i).withEnds w.best w.worst) :=
    h.clear i hkeyBest hkeyWorst
  have hscan : ∀ cand, (w'.clear i).scan cand = (w.clear i).scan cand := fun cand =>
    (scan_eq hclear.active cand).symm
  unfold Window.erase
  dsimp only
  rw [hscan, hscan, ← hbest, ← hworst]
  have hcleared : (w'.clear i).count = (w.clear i).count := hclear.count.symm
  rw [hcleared]
  split
  · rename_i hzero
    refine ⟨hclear.count, hclear.active, hclear.level, ?_, ?_⟩
    · intro hpos
      change 0 < (w.clear i).count at hpos
      omega
    · intro hpos
      change 0 < (w.clear i).count at hpos
      omega
  split
  · exact h.clear i (h.key_scan i _ hkeyBest) hkeyWorst
  split
  · exact h.clear i hkeyBest (h.key_scan i _ hkeyWorst)
  · have hends : w'.clear i = (w'.clear i).withEnds w.best w.worst := by
      rw [hbest, hworst]
      rfl
    rw [hends]
    exact hclear

theorem remove [Zero V] (h : Agree w w') (rest rest' : Fin n) (p : ℤ) :
    Agree (w.remove rest p) (w'.remove rest' p) := by
  unfold Window.remove
  by_cases hzero : w.count = 0
  · rw [if_pos hzero, if_pos (h.count ▸ hzero)]
    exact h
  have hpos : 0 < w.count := Nat.pos_of_ne_zero hzero
  have hzero' : ¬ w'.count = 0 := by
    rw [← h.count]
    exact hzero
  rw [if_neg hzero, if_neg hzero', ← h.indexOf_eq hpos p, ← h.active]
  split
  · exact h.erase hpos rest rest' _
  · exact h

end Agree

end HftSystem.CircularWindow.Window
