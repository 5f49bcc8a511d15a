import HftSystem.WindowInvariants

/-!
The intended state of a circular window: the counter is exact, the endpoints
hold the least and the greatest active key, and all active keys are less than
n apart, so that going round the ring from the best slot meets them in order.
-/
namespace HftSystem.CircularWindow.Window

variable {n : ℕ} {V : Type*} {w : Window n V}

structure Tight (w : Window n V) : Prop where
  count_eq : w.count = w.activeCount
  best_active : 0 < w.count → w.Active w.best
  worst_active : 0 < w.count → w.Active w.worst
  slots : ∀ i, w.Active i → w.key i - i.val ≡ w.anchor [ZMOD n]
  lower : ∀ i, w.Active i → w.key w.best ≤ w.key i
  upper : ∀ i, w.Active i → w.key i ≤ w.key w.worst
  span : ∀ i, w.Active i → w.key w.worst - w.key i < n

namespace Tight

theorem of_empty (h : w.Empty) : w.Tight where
  count_eq := by rw [h.1, (activeCount_eq_zero_iff w).mpr h.2]
  best_active hpos := by
    rw [h.1] at hpos
    omega
  worst_active hpos := by
    rw [h.1] at hpos
    omega
  slots i hi := absurd hi (h.2 i)
  lower i hi := absurd hi (h.2 i)
  upper i hi := absurd hi (h.2 i)
  span i hi := absurd hi (h.2 i)

theorem aligned (h : w.Tight) : w.Aligned where
  slots := h.slots
  counted := h.count_eq.ge
  slack hpos hnot := absurd (h.best_active hpos) hnot

theorem count_pos (h : w.Tight) {i : Fin n} (hi : w.Active i) : 0 < w.count := by
  rw [h.count_eq]
  exact activeCount_pos hi

theorem count_write (h : w.Tight) {i : Fin n} {count : ℕ}
    (hc : count = if w.Active i then w.count else w.count + 1) (p : ℤ) (v : V) (b e : Fin n) :
    count = (w.write i p v b e count).activeCount := by
  by_cases hact : w.Active i
  · rw [activeCount_write_of_active _ _ _ _ _ _ _ hact, hc, if_pos hact, h.count_eq]
  · rw [activeCount_write_of_not_active _ _ _ _ _ _ _ hact, hc, if_neg hact, h.count_eq]

/-- A tight window with a free slot has room in a counter that can count all slots. -/
theorem bump_count (h : w.Tight) {m : ℕ} (hm : n < m) {i : Fin n} (hi : ¬ w.Active i) :
    bump m w.count = w.count + 1 := by
  have hlt : (Finset.univ.filter w.Active).card < (Finset.univ : Finset (Fin n)).card :=
    Finset.card_lt_card ⟨Finset.filter_subset _ _, fun hall =>
      hi (Finset.mem_filter.mp (hall (Finset.mem_univ i))).2⟩
  rw [Finset.card_univ, Fintype.card_fin] at hlt
  have hcount := h.count_eq
  unfold activeCount at hcount
  exact bump_of_lt (by omega)

section Clear

variable [Zero V] {i : Fin n}

theorem clear (h : w.Tight) (hactive : w.Active i) {b e : Fin n}
    (hb : (w.clear i).Active b) (he : (w.clear i).Active e)
    (hlow : ∀ j, (w.clear i).Active j → w.key b ≤ w.key j)
    (hhigh : ∀ j, (w.clear i).Active j → w.key j ≤ w.key e) :
    ((w.clear i).withEnds b e).Tight := by
  have hold : ∀ {j}, (w.clear i).Active j → w.Active j := fun hj =>
    ((active_clear w i _).mp hj).2
  have hkey : ∀ j, ((w.clear i).withEnds b e).key j = w.key j := fun j => key_clear w i j
  refine ⟨?_, fun _ => hb, fun _ => he, ?_, ?_, ?_, ?_⟩
  · have hstep := activeCount_clear w i hactive
    have hcount := h.count_eq
    change w.count - 1 = (w.clear i).activeCount
    omega
  · intro j hj
    change (w.clear i).key j - j.val ≡ (w.clear i).key b - b.val [ZMOD n]
    rw [key_clear, key_clear]
    exact (h.slots j (hold hj)).trans (h.slots b (hold hb)).symm
  · intro j hj
    rw [hkey, hkey]
    exact hlow j hj
  · intro j hj
    rw [hkey, hkey]
    exact hhigh j hj
  · intro j hj
    have hspan := h.span j (hold hj)
    have hupper := h.upper e (hold he)
    rw [hkey, hkey]
    change w.key e - w.key j < n
    omega

/-- While the counter exceeds one, some level other than i remains. -/
theorem exists_active_clear (h : w.Tight) (hactive : w.Active i) (hcount : 1 < w.count) :
    ∃ j, (w.clear i).Active j := by
  by_contra hnone
  have hstep := activeCount_clear w i hactive
  have hzero : (w.clear i).activeCount = 0 :=
    (activeCount_eq_zero_iff _).mpr (fun j hj => hnone ⟨j, hj⟩)
  have heq := h.count_eq
  omega

end Clear

variable [NeZero n]

/-- An active slot that p is looked up in holds p, if p is near its key. -/
theorem key_of_indexOf (h : w.Tight) {i : Fin n} {p : ℤ} (hi : w.Active i)
    (hp : w.indexOf p = i) (hlow : w.key i - p < n) (hhigh : p - w.key i < n) :
    w.key i = p := by
  have hmod : w.key i - i.val ≡ p - i.val [ZMOD n] :=
    (h.slots i hi).trans ((w.indexOf_eq_iff p i).mp hp).symm
  have hkeys : w.key i ≡ p [ZMOD n] := by simpa using hmod.add_right (i.val : ℤ)
  exact eq_of_modEq_of_lt hkeys hlow hhigh

/-- With both endpoints on one slot there is only one level. -/
theorem eq_best (h : w.Tight) (hbw : w.best = w.worst) {i : Fin n} (hi : w.Active i) :
    i = w.best := by
  have hlow := h.lower i hi
  have hhigh := h.upper i hi
  rw [← hbw] at hhigh
  exact h.aligned.key_injective hi (h.best_active (h.count_pos hi)) (by omega)

/-- The insertion of p leaves all keys less than n apart, or replaces the only
level. -/
def Fits (w : Window n V) (p : ℤ) : Prop :=
  w.best = w.worst ∧ w.indexOf p = w.best ∨
    p - w.key w.best < n ∧ w.key w.worst - p < n

theorem of_single {w : Window n V} (hactive : ∀ j, w.Active j ↔ j = w.best)
    (hbw : w.worst = w.best) (hcount : w.count = w.activeCount) : w.Tight where
  count_eq := hcount
  best_active _ := (hactive w.best).mpr rfl
  worst_active _ := (hactive w.worst).mpr hbw
  slots j hj := by
    rw [(hactive j).mp hj]
    exact Int.ModEq.refl _
  lower j hj := by rw [(hactive j).mp hj]
  upper j hj := by rw [(hactive j).mp hj, hbw]
  span j hj := by
    have hn : 0 < n := Nat.pos_of_ne_zero (NeZero.ne n)
    rw [(hactive j).mp hj, hbw]
    omega

theorem write_first (h : w.Tight) (hcount : w.count = 0) (first : Fin n) (p : ℤ) (v : V) :
    (w.write first p v first first 1).Tight := by
  have hnone := h.aligned.not_active_of_count hcount
  refine of_single ?_ rfl ?_
  · intro j
    rw [active_write]
    exact or_iff_left (hnone j)
  · rw [activeCount_write_of_not_active _ _ _ _ _ _ _ (hnone first),
      (activeCount_eq_zero_iff w).mpr hnone]
    rfl

theorem write_replace (h : w.Tight) (hcount : 0 < w.count) (hbw : w.best = w.worst)
    (p : ℤ) (v : V) : (w.write w.best p v w.best w.best w.count).Tight := by
  refine of_single ?_ rfl ?_
  · intro j
    rw [active_write]
    exact or_iff_left_of_imp (h.eq_best hbw)
  · rw [activeCount_write_of_active _ _ _ _ _ _ _ (h.best_active hcount)]
    exact h.count_eq

section WriteNear

variable {p : ℤ} {i : Fin n}

/-- Filling the slot of a key that is less than n away from every active key leaves the
other keys alone. -/
theorem key_write_near (h : w.Tight) (hi : w.indexOf p = i) (hlow : p - w.key w.best < n)
    (hhigh : w.key w.worst - p < n) (v : V) (b e : Fin n) (count : ℕ) {j : Fin n}
    (hj : w.Active j) : (w.write i p v b e count).key j = w.key j := by
  by_cases hji : j = i
  · subst hji
    have hjlow := h.lower j hj
    have hjhigh := h.upper j hj
    rw [key_write_self]
    exact (h.key_of_indexOf hj hi (by omega) (by omega)).symm
  · exact key_write_of_ne w i j p v b e count hji

theorem key_best_write_near (h : w.Tight) (hcount : 0 < w.count) (hi : w.indexOf p = i)
    (hlow : p - w.key w.best < n) (hhigh : w.key w.worst - p < n) {b : Fin n}
    (hb : b = if p < w.key w.best then i else w.best) (v : V) (e : Fin n) (count : ℕ) :
    (w.write i p v b e count).key b = min p (w.key w.best) := by
  by_cases hlt : p < w.key w.best
  · rw [if_pos hlt] at hb
    rw [hb, key_write_self, min_eq_left hlt.le]
  · rw [if_neg hlt] at hb
    rw [hb, h.key_write_near hi hlow hhigh v _ e count (h.best_active hcount),
      min_eq_right (not_lt.mp hlt)]

theorem key_worst_write_near (h : w.Tight) (hcount : 0 < w.count) (hi : w.indexOf p = i)
    (hlow : p - w.key w.best < n) (hhigh : w.key w.worst - p < n) {e : Fin n}
    (he : e = if w.key w.worst < p then i else w.worst) (v : V) (b : Fin n) (count : ℕ) :
    (w.write i p v b e count).key e = max p (w.key w.worst) := by
  by_cases hlt : w.key w.worst < p
  · rw [if_pos hlt] at he
    rw [he, key_write_self, max_eq_left hlt.le]
  · rw [if_neg hlt] at he
    rw [he, h.key_write_near hi hlow hhigh v b _ count (h.worst_active hcount),
      max_eq_right (not_lt.mp hlt)]

/-- Filling the slot of a key p that is less than n away from every active
key. An endpoint moves to p when p is beyond it. -/
theorem write_near (h : w.Tight) (hcount : 0 < w.count) {b e : Fin n} {count : ℕ}
    (hi : w.indexOf p = i) (hlow : p - w.key w.best < n) (hhigh : w.key w.worst - p < n)
    (hb : b = if p < w.key w.best then i else w.best)
    (he : e = if w.key w.worst < p then i else w.worst)
    (hc : count = if w.Active i then w.count else w.count + 1) (v : V) :
    (w.write i p v b e count).Tight := by
  have hbkey := h.key_best_write_near hcount hi hlow hhigh hb v e count
  have hekey := h.key_worst_write_near hcount hi hlow hhigh he v b count
  have hb' : b = w.best ∨ b = i := by
    rw [hb]
    exact (ite_eq_or_eq _ i w.best).symm
  have he' : e = i ∨ e = w.worst := by
    rw [he]
    exact ite_eq_or_eq _ i w.worst
  have hkey : ∀ j, (w.write i p v b e count).Active j → (w.write i p v b e count).key j = p ∨
      w.Active j ∧ (w.write i p v b e count).key j = w.key j := by
    intro j hj
    rcases (active_write w i j p v b e count).mp hj with rfl | hact
    · exact Or.inl (key_write_self w j p v b e count)
    · exact Or.inr ⟨hact, h.key_write_near hi hlow hhigh v b e count hact⟩
  refine ⟨h.count_write hc p v b e, ?_, ?_, h.aligned.slots_write hi hb' v e count, ?_, ?_, ?_⟩
  · intro _
    refine (active_write w i b p v b e count).mpr ?_
    rcases hb' with rfl | rfl
    · exact Or.inr (h.best_active hcount)
    · exact Or.inl rfl
  · intro _
    refine (active_write w i e p v b e count).mpr ?_
    rcases he' with rfl | rfl
    · exact Or.inl rfl
    · exact Or.inr (h.worst_active hcount)
  · intro j hj
    change (w.write i p v b e count).key b ≤ _
    rw [hbkey]
    rcases hkey j hj with hp | ⟨hact, hold⟩
    · omega
    · have hjlow := h.lower j hact
      omega
  · intro j hj
    change _ ≤ (w.write i p v b e count).key e
    rw [hekey]
    rcases hkey j hj with hp | ⟨hact, hold⟩
    · omega
    · have hjhigh := h.upper j hact
      omega
  · intro j hj
    have hn : 0 < n := Nat.pos_of_ne_zero (NeZero.ne n)
    change (w.write i p v b e count).key e - _ < n
    rw [hekey]
    rcases hkey j hj with hp | ⟨hact, hold⟩
    · omega
    · have hjspan := h.span j hact
      have hjlow := h.lower j hact
      omega

end WriteNear

/-- No active slot is found by a key less than n away that no level has. -/
theorem not_active_indexOf (h : w.Tight) {p : ℤ} (hlow : p - w.key w.best < n)
    (hhigh : w.key w.worst - p < n) (hout : p < w.key w.best ∨ w.key w.worst < p) :
    ¬ w.Active (w.indexOf p) := by
  intro hact
  have hjlow := h.lower _ hact
  have hjhigh := h.upper _ hact
  have hkey := h.key_of_indexOf hact rfl (by omega) (by omega)
  omega

theorem insert (h : w.Tight) {m : ℕ} (hm : n < m) (accept : Bool) (first : Fin n) (p : ℤ) (v : V)
    (hfits : accept = true → 0 < w.count → Fits w p) : (w.insert m accept first p v).Tight := by
  have hspec := insert_spec m accept first w p v
  generalize w.insert m accept first p v = w' at hspec ⊢
  cases hspec with
  | first hcount =>
    have hone : bump m 0 = 1 := bump_of_lt (by
      have hn : 0 < n := Nat.pos_of_ne_zero (NeZero.ne n)
      omega)
    rw [hone]
    exact h.write_first hcount first p v
  | drop => exact h
  | replace hcount haccept hbw hi => exact h.write_replace hcount hbw p v
  | inside hcount hbw hlow hhigh =>
    have hspan := h.span _ (h.best_active hcount)
    refine h.write_near hcount rfl (by omega) (by omega) (by rw [if_neg (by omega)])
      (by rw [if_neg (by omega)]) ?_ v
    by_cases hactive : w.Active (w.indexOf p)
    · exact (if_pos hactive).trans (if_pos hactive).symm
    · exact (if_neg hactive).trans ((h.bump_count hm hactive).trans (if_neg hactive).symm)
  | lower hcount haccept hlow hi =>
    obtain ⟨hbw, hbest⟩ | ⟨hnear, hfar⟩ := hfits haccept hcount
    · exact absurd hbest (hi hbw)
    · have hle := h.lower _ (h.worst_active hcount)
      have hfree := h.not_active_indexOf hnear hfar (Or.inl hlow)
      exact h.write_near hcount rfl hnear hfar (by rw [if_pos hlow]) (by rw [if_neg (by omega)])
        (by rw [if_neg hfree, h.bump_count hm hfree]) v
  | raise hcount haccept hhigh hi =>
    obtain ⟨hbw, hbest⟩ | ⟨hnear, hfar⟩ := hfits haccept hcount
    · exact absurd hbest (hi hbw)
    · have hle := h.lower _ (h.worst_active hcount)
      have hfree := h.not_active_indexOf hnear hfar (Or.inr hhigh)
      exact h.write_near hcount rfl hnear hfar (by rw [if_neg (by omega)]) (by rw [if_pos hhigh])
        (by rw [if_neg hfree, h.bump_count hm hfree]) v

/-! ### Removal -/

/-- A level d slots above the best slot has the key d above the best key. -/
theorem key_above_best (h : w.Tight) {d : ℕ} (hdn : d < n)
    (hactive : w.Active (above w.best d)) : w.key (above w.best d) = w.key w.best + d := by
  have hpos := h.count_pos hactive
  have hlow := h.lower _ hactive
  have hhigh := h.upper _ hactive
  have hspan := h.span _ (h.best_active hpos)
  have hslot : (w.best.val + d : ℤ) ≡ (above w.best d).val [ZMOD n] :=
    (above_eq_iff _ _ _).mp rfl
  have hmod := (h.slots _ hactive).add hslot.symm
  have hkey : w.key (above w.best d) ≡ w.key w.best + d [ZMOD n] := by
    have hsum : w.anchor + (w.best.val + d) = w.key w.best + d := by
      unfold anchor
      omega
    rw [hsum] at hmod
    simpa using hmod
  exact eq_of_modEq_of_lt hkey (by omega) (by omega)

theorem key_below_worst (h : w.Tight) {d : ℕ} (hdn : d < n)
    (hactive : w.Active (below w.worst d)) : w.key (below w.worst d) = w.key w.worst - d := by
  have hpos := h.count_pos hactive
  have hhigh := h.upper _ hactive
  have hspan := h.span _ hactive
  have hslot : (w.worst.val - d : ℤ) ≡ (below w.worst d).val [ZMOD n] :=
    (below_eq_iff _ _ _).mp rfl
  have hmod := (h.slots _ hactive).trans (h.slots _ (h.worst_active hpos)).symm
  have hkey : w.key (below w.worst d) ≡ w.key w.worst - d [ZMOD n] := by
    have hsum := hmod.add hslot.symm
    have heq : w.key w.worst - w.worst.val + (w.worst.val - d) = w.key w.worst - d := by omega
    rw [heq] at hsum
    simpa using hsum
  exact eq_of_modEq_of_lt hkey (by omega) (by omega)

variable [Zero V]

/-- Scanning up from the cleared best slot meets the least remaining key. -/
theorem scan_above_best (h : w.Tight) (hbest : w.Active w.best) (hcount : 1 < w.count) :
    ∃ c, (w.clear w.best).scan (above w.best) = some c ∧ (w.clear w.best).Active c ∧
      ∀ j, (w.clear w.best).Active j → w.key c ≤ w.key j := by
  obtain ⟨j₀, hj₀⟩ := h.exists_active_clear hbest hcount
  cases hscan : (w.clear w.best).scan (above w.best) with
  | none =>
    obtain ⟨d, hd, hdn, rfl⟩ := exists_above w.best j₀ ((active_clear w _ _).mp hj₀).1
    exact absurd hj₀ (scan_eq_none hscan d hd hdn)
  | some c =>
    obtain ⟨d, hd, hdn, rfl, hc, hfree⟩ := scan_eq_some hscan
    refine ⟨_, rfl, hc, ?_⟩
    intro j hj
    obtain ⟨hjb, hjactive⟩ := (active_clear w _ _).mp hj
    obtain ⟨e, he, hen, rfl⟩ := exists_above w.best j hjb
    have hde : d ≤ e := by
      by_contra hlt
      exact hfree e he (by omega) hj
    rw [h.key_above_best hdn ((active_clear w _ _).mp hc).2, h.key_above_best hen hjactive]
    omega

theorem scan_below_worst (h : w.Tight) (hworst : w.Active w.worst) (hcount : 1 < w.count) :
    ∃ c, (w.clear w.worst).scan (below w.worst) = some c ∧ (w.clear w.worst).Active c ∧
      ∀ j, (w.clear w.worst).Active j → w.key j ≤ w.key c := by
  obtain ⟨j₀, hj₀⟩ := h.exists_active_clear hworst hcount
  cases hscan : (w.clear w.worst).scan (below w.worst) with
  | none =>
    obtain ⟨d, hd, hdn, rfl⟩ := exists_below w.worst j₀ ((active_clear w _ _).mp hj₀).1
    exact absurd hj₀ (scan_eq_none hscan d hd hdn)
  | some c =>
    obtain ⟨d, hd, hdn, rfl, hc, hfree⟩ := scan_eq_some hscan
    refine ⟨_, rfl, hc, ?_⟩
    intro j hj
    obtain ⟨hjb, hjactive⟩ := (active_clear w _ _).mp hj
    obtain ⟨e, he, hen, rfl⟩ := exists_below w.worst j hjb
    have hde : d ≤ e := by
      by_contra hlt
      exact hfree e he (by omega) hj
    rw [h.key_below_worst hdn ((active_clear w _ _).mp hc).2, h.key_below_worst hen hjactive]
    omega

theorem best_ne_worst (h : w.Tight) (hcount : 1 < w.count) : w.best ≠ w.worst := by
  intro hbw
  obtain ⟨j, hj⟩ := h.exists_active_clear (h.best_active (by omega)) hcount
  obtain ⟨hjb, hjactive⟩ := (active_clear w _ _).mp hj
  exact hjb (h.eq_best hbw hjactive)

theorem remove (h : w.Tight) (rest : Fin n) (p : ℤ) :
    (w.remove rest p).Tight := by
  have hspec := remove_spec rest w p
  generalize w.remove rest p = w' at hspec ⊢
  generalize w.indexOf p = i at hspec
  cases hspec with
  | absent => exact h
  | last hactive hcount =>
    have hstep := activeCount_clear w i hactive
    have heq := h.count_eq
    refine Tight.of_empty ⟨?_, ?_⟩
    · change w.count - 1 = 0
      omega
    · exact (activeCount_eq_zero_iff (w.clear i)).mp (by omega)
  | best hactive hcount hbest =>
    subst hbest
    obtain ⟨c, hscan, hc, hleast⟩ := h.scan_above_best hactive hcount
    have hworst := (active_clear w w.best w.worst).mpr
      ⟨(h.best_ne_worst hcount).symm, h.worst_active (by omega)⟩
    rw [hscan]
    exact h.clear hactive hc hworst hleast
      (fun j hj => h.upper j ((active_clear w _ _).mp hj).2)
  | worst hactive hcount hb hworst =>
    subst hworst
    obtain ⟨c, hscan, hc, hgreatest⟩ := h.scan_below_worst hactive hcount
    have hbest := (active_clear w w.worst w.best).mpr
      ⟨h.best_ne_worst hcount, h.best_active (by omega)⟩
    rw [hscan]
    exact h.clear hactive hbest hc
      (fun j hj => h.lower j ((active_clear w _ _).mp hj).2) hgreatest
  | inner hactive hcount hb hw =>
    have hbest := (active_clear w i w.best).mpr ⟨Ne.symm hb, h.best_active (by omega)⟩
    have hworst := (active_clear w i w.worst).mpr ⟨Ne.symm hw, h.worst_active (by omega)⟩
    exact h.clear hactive hbest hworst
      (fun j hj => h.lower j ((active_clear w _ _).mp hj).2)
      (fun j hj => h.upper j ((active_clear w _ _).mp hj).2)

end Tight
end HftSystem.CircularWindow.Window
