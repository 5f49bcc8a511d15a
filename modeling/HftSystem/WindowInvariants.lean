import HftSystem.CircularWindow

/-!
Three invariants of a circular window. `Aligned` survives every operation that
does not take the counter round: each active slot is the one its key is looked up
in, and the counter never falls below the number of active slots. `Keys` says where
the stored keys come from. `Tight` is the intended state, with exact counter and
endpoints; it survives an insertion that keeps all keys less than n apart.
-/
namespace HftSystem.CircularWindow

variable {n : ℕ} {V : Type*}

namespace Window

/-- An empty window: the counter is zero and no slot is active. -/
def Empty (w : Window n V) : Prop := w.count = 0 ∧ ∀ i, ¬ w.Active i

section Distance

variable [NeZero n]

theorem above_eq_iff (i j : Fin n) (d : ℕ) :
    above i d = j ↔ (i.val + d : ℤ) ≡ j.val [ZMOD n] := residue_eq_iff _ _

theorem below_eq_iff (i j : Fin n) (d : ℕ) :
    below i d = j ↔ (i.val - d : ℤ) ≡ j.val [ZMOD n] := residue_eq_iff _ _

/-- Going up from i reaches every other slot in fewer than n steps. -/
theorem exists_above (i j : Fin n) (hij : j ≠ i) : ∃ d, 1 ≤ d ∧ d < n ∧ above i d = j := by
  have hne : j.val ≠ i.val := fun h => hij (Fin.ext h)
  have hi := i.isLt
  have hj := j.isLt
  rcases lt_or_gt_of_ne hne with hlt | hgt
  · refine ⟨j.val + n - i.val, by omega, by omega, ?_⟩
    rw [above_eq_iff, Int.modEq_iff_dvd]
    exact ⟨-1, by omega⟩
  · refine ⟨j.val - i.val, by omega, by omega, ?_⟩
    rw [above_eq_iff, Int.modEq_iff_dvd]
    exact ⟨0, by omega⟩

theorem exists_below (i j : Fin n) (hij : j ≠ i) : ∃ d, 1 ≤ d ∧ d < n ∧ below i d = j := by
  obtain ⟨d, hd, hdn, habove⟩ := exists_above j i (Ne.symm hij)
  refine ⟨d, hd, hdn, ?_⟩
  rw [above_eq_iff] at habove
  rw [below_eq_iff]
  simpa using habove.symm.sub_right (d : ℤ)

end Distance

/-! ### Lookup stays sound -/

/-- Every active slot is found by its own key. The last field is the slack the
counter keeps while the best slot is inactive. -/
structure Aligned (w : Window n V) : Prop where
  slots : ∀ i, w.Active i → w.key i - i.val ≡ w.anchor [ZMOD n]
  counted : w.activeCount ≤ w.count
  slack : 0 < w.count → ¬ w.Active w.best → w.activeCount < w.count

theorem Aligned.of_empty {w : Window n V} (h : w.Empty) : w.Aligned where
  slots i hi := absurd hi (h.2 i)
  counted := by
    rw [(activeCount_eq_zero_iff w).mpr h.2]
    omega
  slack hpos := by
    rw [h.1] at hpos
    omega

namespace Aligned

variable {w : Window n V}

theorem not_active_of_count (h : w.Aligned) (hcount : w.count = 0) (i : Fin n) :
    ¬ w.Active i := by
  have hzero : w.activeCount = 0 := by
    have hle := h.counted
    omega
  exact (activeCount_eq_zero_iff w).mp hzero i

/-- The shape all removals share that leave a positive counter. -/
theorem clear [Zero V] (h : w.Aligned) {i b : Fin n} (hactive : w.Active i)
    (hb : (w.clear i).Active b ∨ b = w.best)
    (hgone : b = w.best → b = i → (w.clear i).activeCount = 0) (hcount : 1 < w.count)
    (worst : Fin n) : ((w.clear i).withEnds b worst).Aligned where
  slots := by
    intro j hj
    have hanchor : w.key b - b.val ≡ w.anchor [ZMOD n] := by
      rcases hb with hb | rfl
      · exact h.slots b ((active_clear w i b).mp hb).2
      · exact Int.ModEq.refl _
    change (w.clear i).key j - j.val ≡ (w.clear i).key b - b.val [ZMOD n]
    rw [key_clear, key_clear]
    exact (h.slots j ((active_clear w i j).mp hj).2).trans hanchor.symm
  counted := by
    have hstep := activeCount_clear w i hactive
    have hle := h.counted
    change (w.clear i).activeCount ≤ w.count - 1
    omega
  slack := by
    intro _ hinactive
    change (w.clear i).activeCount < w.count - 1
    have hbest : b = w.best := hb.resolve_left hinactive
    have hstep := activeCount_clear w i hactive
    by_cases hbi : b = i
    · have hzero := hgone hbest hbi
      omega
    · have hnot : ¬ w.Active w.best := by
        intro hact
        exact hinactive ((active_clear w i b).mpr ⟨hbi, hbest ▸ hact⟩)
      have hslack := h.slack (by omega) hnot
      omega

variable [NeZero n]

theorem indexOf_key (h : w.Aligned) {i : Fin n} (hi : w.Active i) : w.indexOf (w.key i) = i :=
  (w.indexOf_eq_iff _ _).mpr (h.slots i hi)

theorem key_injective (h : w.Aligned) {i j : Fin n} (hi : w.Active i) (hj : w.Active j)
    (hkey : w.key i = w.key j) : i = j := by
  rw [← h.indexOf_key hi, ← h.indexOf_key hj, hkey]

/-- A filled slot and an old slot agree about the anchor. -/
theorem anchor_write (w : Window n V) {i b : Fin n} {p : ℤ} (hi : w.indexOf p = i)
    (hb : b = w.best ∨ b = i) (v : V) (worst : Fin n) (count : ℕ) :
    (w.write i p v b worst count).anchor ≡ w.anchor [ZMOD n] := by
  have hkey : (w.write i p v b worst count).anchor =
      (w.write i p v b worst count).key b - b.val := rfl
  rw [hkey]
  by_cases hbi : b = i
  · subst hbi
    rw [key_write_self]
    exact (w.indexOf_eq_iff p b).mp hi
  · rw [key_write_of_ne _ _ _ _ _ _ _ _ hbi]
    rcases hb with rfl | hb
    · exact Int.ModEq.refl _
    · exact absurd hb hbi

theorem slots_write (h : w.Aligned) {i b : Fin n} {p : ℤ} (hi : w.indexOf p = i)
    (hb : b = w.best ∨ b = i) (v : V) (worst : Fin n) (count : ℕ) (j : Fin n)
    (hj : (w.write i p v b worst count).Active j) :
    (w.write i p v b worst count).key j - j.val ≡
      (w.write i p v b worst count).anchor [ZMOD n] := by
  refine Int.ModEq.trans ?_ (anchor_write w hi hb v worst count).symm
  by_cases hji : j = i
  · subst hji
    rw [key_write_self]
    exact (w.indexOf_eq_iff p j).mp hi
  · rw [key_write_of_ne _ _ _ _ _ _ _ _ hji]
    rw [active_write] at hj
    exact h.slots j (hj.resolve_left hji)

/-- The shape all insertions into a non-empty window share. -/
theorem write (h : w.Aligned) {i b : Fin n} {p : ℤ} (hpos : 0 < w.count)
    (hi : w.indexOf p = i) (hb : b = w.best ∨ b = i) {count : ℕ}
    (hcount : count = w.count + 1 ∨
      count = w.count ∧ (w.Active i ∨ i = w.best ∧ b = i)) (v : V) (worst : Fin n) :
    (w.write i p v b worst count).Aligned where
  slots := h.slots_write hi hb v worst count
  counted := by
    change _ ≤ count
    have hle := h.counted
    have hstep := activeCount_write_le w i p v b worst count
    rcases hcount with rfl | ⟨rfl, hactive | ⟨rfl, -⟩⟩
    · omega
    · rw [activeCount_write_of_active _ _ _ _ _ _ _ hactive]
      exact hle
    · by_cases hbest : w.Active w.best
      · rw [activeCount_write_of_active _ _ _ _ _ _ _ hbest]
        exact hle
      · have hslack := h.slack hpos hbest
        omega
  slack := by
    intro _ hinactive
    change _ < count
    change ¬ (w.write i p v b worst count).Active b at hinactive
    rw [active_write, not_or] at hinactive
    obtain ⟨hbi, hnot⟩ := hinactive
    have hbbest : b = w.best := hb.resolve_right hbi
    have hslack := h.slack hpos (hbbest ▸ hnot)
    have hstep := activeCount_write_le w i p v b worst count
    rcases hcount with rfl | ⟨rfl, hactive | ⟨-, hbi'⟩⟩
    · omega
    · rw [activeCount_write_of_active _ _ _ _ _ _ _ hactive]
      exact hslack
    · exact absurd hbi' hbi

/-- An insertion that moves the counter needs room for it. -/
theorem insert (h : w.Aligned) {m : ℕ} (hm : 1 < m) (accept : Bool) (first : Fin n) (p : ℤ) (v : V)
    (hroom : (w.insert m accept first p v).count ≠ w.count → w.count + 1 < m) :
    (w.insert m accept first p v).Aligned := by
  have hspec := insert_spec m accept first w p v
  generalize w.insert m accept first p v = w' at hspec hroom ⊢
  cases hspec with
  | first hcount =>
    have hnone := h.not_active_of_count hcount
    have hone : bump m 0 = 1 := bump_of_lt hm
    rw [hone]
    have honly : ∀ j, (w.write first p v first first 1).Active j → j = first := by
      intro j hj
      rw [active_write] at hj
      exact hj.resolve_right (hnone j)
    refine ⟨?_, ?_, ?_⟩
    · intro j hj
      rw [honly j hj]
      exact Int.ModEq.refl _
    · have hstep := activeCount_write_le w first p v first first 1
      have hzero := (activeCount_eq_zero_iff w).mpr hnone
      change _ ≤ 1
      omega
    · intro _ hinactive
      exact absurd ((active_write w first first p v first first 1).mpr (Or.inl rfl)) hinactive
  | drop => exact h
  | replace hcount haccept hbw hi =>
    exact h.write hcount hi (Or.inl rfl) (Or.inr ⟨rfl, Or.inr ⟨rfl, rfl⟩⟩) v _
  | inside hcount hbw hlow hhigh =>
    refine h.write hcount rfl (Or.inl rfl) ?_ v _
    by_cases hactive : w.Active (w.indexOf p)
    · exact Or.inr ⟨if_pos hactive, Or.inl hactive⟩
    · refine Or.inl ((if_neg hactive).trans (bump_of_lt (hroom ?_)))
      exact (if_neg hactive).trans_ne (bump_ne hm _)
  | lower hcount haccept hlow hi =>
    exact h.write hcount rfl (Or.inr rfl) (Or.inl (bump_of_lt (hroom (bump_ne hm _)))) v _
  | raise hcount haccept hhigh hi =>
    exact h.write hcount rfl (Or.inl rfl) (Or.inl (bump_of_lt (hroom (bump_ne hm _)))) v _

/-- A scan that finds nothing leaves no active slot other than i. -/
theorem activeCount_clear_of_scan_none [Zero V] (w : Window n V) (i : Fin n)
    (hscan : (w.clear i).scan (above i) = none) : (w.clear i).activeCount = 0 := by
  rw [activeCount_eq_zero_iff]
  intro j hj
  have hji : j ≠ i := ((active_clear w i j).mp hj).1
  obtain ⟨d, hd, hdn, rfl⟩ := exists_above i j hji
  exact scan_eq_none hscan d hd hdn hj

theorem remove [Zero V] (h : w.Aligned) (rest : Fin n) (p : ℤ) :
    (w.remove rest p).Aligned := by
  have hspec := remove_spec rest w p
  generalize w.remove rest p = w' at hspec ⊢
  generalize w.indexOf p = i at hspec
  cases hspec with
  | absent => exact h
  | last hactive hcount =>
    have hstep := activeCount_clear w i hactive
    have hle := h.counted
    refine Aligned.of_empty ⟨?_, ?_⟩
    · change w.count - 1 = 0
      omega
    · exact (activeCount_eq_zero_iff (w.clear i)).mp (by omega)
  | best hactive hcount hbest =>
    cases hscan : (w.clear i).scan (above i) with
    | none =>
      exact h.clear hactive (Or.inr rfl)
        (fun _ _ => activeCount_clear_of_scan_none w i hscan) hcount _
    | some c =>
      have hc := scan_active hscan
      refine h.clear hactive (Or.inl hc) ?_ hcount _
      rintro - rfl
      exact absurd rfl ((active_clear w _ _).mp hc).1
  | worst hactive hcount hb hworst =>
    exact h.clear hactive (Or.inr rfl) (fun _ hbi => absurd hbi.symm hb) hcount _
  | inner hactive hcount hb hw =>
    exact h.clear hactive (Or.inr rfl) (fun _ hbi => absurd hbi.symm hb) hcount _

end Aligned

/-! ### Where the keys come from -/

/-- Every key that a later operation can read satisfies P. -/
structure Keys (P : ℤ → Prop) (w : Window n V) : Prop where
  slots : ∀ i, w.Active i → P (w.key i)
  best : 0 < w.count → P (w.key w.best)
  worst : 0 < w.count → P (w.key w.worst)

namespace Keys

variable {P : ℤ → Prop} {w : Window n V}

theorem of_empty (h : w.Empty) : w.Keys P where
  slots i hi := absurd hi (h.2 i)
  best hpos := by
    rw [h.1] at hpos
    omega
  worst hpos := by
    rw [h.1] at hpos
    omega

theorem key_write (i j : Fin n) {p : ℤ} (hp : P p) (v : V) (best worst : Fin n) (count : ℕ)
    (hj : j ≠ i → P (w.key j)) : P ((w.write i p v best worst count).key j) := by
  by_cases hji : j = i
  · subst hji
    rwa [key_write_self]
  · rw [key_write_of_ne _ _ _ _ _ _ _ _ hji]
    exact hj hji

theorem write (h : w.Keys P) {i best worst : Fin n} {p : ℤ} (hp : P p) (v : V) (count : ℕ)
    (hbest : best ≠ i → P (w.key best)) (hworst : worst ≠ i → P (w.key worst)) :
    (w.write i p v best worst count).Keys P where
  slots j hj := key_write i j hp v best worst count
    (fun hji => h.slots j (((active_write w i j p v best worst count).mp hj).resolve_left hji))
  best _ := key_write i best hp v best worst count hbest
  worst _ := key_write i worst hp v best worst count hworst

theorem clear [Zero V] (h : w.Keys P) {i b e : Fin n} (hpos : 0 < w.count)
    (hb : (w.clear i).Active b ∨ b = w.best) (he : (w.clear i).Active e ∨ e = w.worst) :
    ((w.clear i).withEnds b e).Keys P where
  slots j hj := by
    change P ((w.clear i).key j)
    rw [key_clear]
    exact h.slots j ((active_clear w i j).mp hj).2
  best _ := by
    change P ((w.clear i).key b)
    rw [key_clear]
    rcases hb with hb | rfl
    · exact h.slots b ((active_clear w i b).mp hb).2
    · exact h.best hpos
  worst _ := by
    change P ((w.clear i).key e)
    rw [key_clear]
    rcases he with he | rfl
    · exact h.slots e ((active_clear w i e).mp he).2
    · exact h.worst hpos

variable [NeZero n]

theorem insert (h : w.Keys P) (m : ℕ) (accept : Bool) (first : Fin n) {p : ℤ} (hp : P p) (v : V) :
    (w.insert m accept first p v).Keys P := by
  have hspec := insert_spec m accept first w p v
  generalize w.insert m accept first p v = w' at hspec ⊢
  cases hspec with
  | first hcount => exact h.write hp v _ (absurd rfl) (absurd rfl)
  | drop => exact h
  | replace hcount haccept hbw hi => exact h.write hp v _ (absurd rfl) (absurd rfl)
  | inside hcount hbw hlow hhigh =>
    exact h.write hp v _ (fun _ => h.best hcount) (fun _ => h.worst hcount)
  | lower hcount haccept hlow hi =>
    exact h.write hp v _ (absurd rfl) (fun _ => h.worst hcount)
  | raise hcount haccept hhigh hi =>
    exact h.write hp v _ (fun _ => h.best hcount) (absurd rfl)

theorem remove [Zero V] (h : w.Keys P) (rest : Fin n) (p : ℤ) :
    (w.remove rest p).Keys P := by
  have hspec := remove_spec rest w p
  generalize w.remove rest p = w' at hspec ⊢
  generalize w.indexOf p = i at hspec
  have getD_scan : ∀ (cand : ℕ → Fin n) (old : Fin n),
      (w.clear i).Active (((w.clear i).scan cand).getD old) ∨
        ((w.clear i).scan cand).getD old = old := by
    intro cand old
    cases hscan : (w.clear i).scan cand with
    | none => exact Or.inr rfl
    | some c => exact Or.inl (scan_active hscan)
  cases hspec with
  | absent => exact h
  | last hactive hcount =>
    have hzero : ((w.clear i).withEnds rest rest).count = 0 := by
      change w.count - 1 = 0
      omega
    refine ⟨?_, ?_, ?_⟩
    · exact (h.clear (by omega) (Or.inr rfl) (Or.inr rfl) : ((w.clear i).withEnds _ _).Keys P).slots
    · intro hpos
      omega
    · intro hpos
      omega
  | best hactive hcount hbest =>
    exact h.clear (by omega) (getD_scan _ _) (Or.inr rfl)
  | worst hactive hcount hb hworst =>
    exact h.clear (by omega) (Or.inr rfl) (getD_scan _ _)
  | inner hactive hcount hb hw => exact h.clear (by omega) (Or.inr rfl) (Or.inr rfl)

end Keys

end Window
end HftSystem.CircularWindow
