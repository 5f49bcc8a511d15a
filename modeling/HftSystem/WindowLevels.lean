import HftSystem.TightWindow
import Mathlib.Data.Finset.Sort
import Mathlib.Data.Finsupp.Basic
import Mathlib.Data.Int.ConditionallyCompleteOrder
import Mathlib.Order.Bounds.Basic

/-!
What a circular window is for: a finite map from keys to values, in which the
value zero deletes a key and a new key is stored only within a fixed reach of
the keys already there. A window whose levels lie in one block of n consecutive
keys, each key in the slot of its offset, represents such a map exactly.
-/
namespace HftSystem.CircularWindow

/-- Key p lies within `reach` of the interval from the least to the greatest key. -/
def Within (reach : ℤ) (m : ℤ →₀ ℤ) (p : ℤ) : Prop :=
  ∃ lo hi, IsLeast (m.support : Set ℤ) lo ∧ IsGreatest (m.support : Set ℤ) hi ∧
    lo - reach ≤ p ∧ p ≤ hi + reach

open Classical in
/-- One update of the map. -/
noncomputable def put (reach : ℤ) (m : ℤ →₀ ℤ) (p v : ℤ) : ℤ →₀ ℤ :=
  if v = 0 then m.erase p
  else if m = 0 ∨ Within reach m p then m.update p v
  else m

/-- The map after a run of updates. -/
noncomputable def putAll (reach : ℤ) (m : ℤ →₀ ℤ) (us : List (ℤ × ℤ)) : ℤ →₀ ℤ :=
  us.foldl (fun m u => put reach m u.1 u.2) m

/-! ### Reflected maps -/

/-- The map that has at c - p what m has at p. -/
noncomputable def reflect (c : ℤ) (m : ℤ →₀ ℤ) : ℤ →₀ ℤ := m.equivMapDomain (Equiv.subLeft c)

theorem reflect_apply (c : ℤ) (m : ℤ →₀ ℤ) (p : ℤ) : reflect c m p = m (c - p) := by
  rw [reflect, Finsupp.equivMapDomain_apply, Equiv.subLeft_symm_apply, neg_add_eq_sub]

theorem reflect_reflect (c : ℤ) (m : ℤ →₀ ℤ) : reflect c (reflect c m) = m := by
  ext p
  rw [reflect_apply, reflect_apply, sub_sub_cancel]

theorem mem_support_reflect (c : ℤ) (m : ℤ →₀ ℤ) (p : ℤ) :
    p ∈ (reflect c m).support ↔ c - p ∈ m.support := by
  rw [Finsupp.mem_support_iff, Finsupp.mem_support_iff, reflect_apply]

theorem isLeast_reflect {c : ℤ} {m : ℤ →₀ ℤ} {p : ℤ}
    (h : IsGreatest (m.support : Set ℤ) p) :
    IsLeast ((reflect c m).support : Set ℤ) (c - p) := by
  refine ⟨?_, ?_⟩
  · rw [Finset.mem_coe, mem_support_reflect, sub_sub_cancel]
    exact h.1
  · intro q hq
    rw [Finset.mem_coe, mem_support_reflect] at hq
    have hle := h.2 hq
    omega

theorem isGreatest_reflect {c : ℤ} {m : ℤ →₀ ℤ} {p : ℤ}
    (h : IsLeast (m.support : Set ℤ) p) :
    IsGreatest ((reflect c m).support : Set ℤ) (c - p) := by
  refine ⟨?_, ?_⟩
  · rw [Finset.mem_coe, mem_support_reflect, sub_sub_cancel]
    exact h.1
  · intro q hq
    rw [Finset.mem_coe, mem_support_reflect] at hq
    have hle := h.2 hq
    omega

theorem Within.reflect {reach c : ℤ} {m : ℤ →₀ ℤ} {p : ℤ} (h : Within reach m p) :
    Within reach (reflect c m) (c - p) := by
  obtain ⟨lo, hi, hlo, hhi, hlow, hhigh⟩ := h
  exact ⟨c - hi, c - lo, isLeast_reflect hhi, isGreatest_reflect hlo, by omega, by omega⟩

theorem within_reflect_iff (reach c : ℤ) (m : ℤ →₀ ℤ) (p : ℤ) :
    Within reach (reflect c m) (c - p) ↔ Within reach m p := by
  constructor
  · intro h
    have hback := h.reflect (c := c)
    rwa [reflect_reflect, sub_sub_cancel] at hback
  · exact Within.reflect

theorem reflect_eq_zero_iff (c : ℤ) (m : ℤ →₀ ℤ) : reflect c m = 0 ↔ m = 0 := by
  constructor
  · intro h
    have hback := congrArg (reflect c) h
    rw [reflect_reflect] at hback
    rw [hback]
    ext p
    rw [reflect_apply, Finsupp.zero_apply, Finsupp.zero_apply]
  · rintro rfl
    ext p
    rw [reflect_apply, Finsupp.zero_apply, Finsupp.zero_apply]

theorem erase_reflect (c : ℤ) (m : ℤ →₀ ℤ) (p : ℤ) :
    (reflect c m).erase (c - p) = reflect c (m.erase p) := by
  ext q
  rw [reflect_apply]
  by_cases hq : q = c - p
  · subst hq
    simp
  · have hne : c - q ≠ p := by omega
    rw [Finsupp.erase_ne hq, Finsupp.erase_ne hne, reflect_apply]

theorem update_reflect (c : ℤ) (m : ℤ →₀ ℤ) (p v : ℤ) :
    (reflect c m).update (c - p) v = reflect c (m.update p v) := by
  ext q
  rw [reflect_apply, Finsupp.update_apply, Finsupp.update_apply]
  by_cases hq : q = c - p
  · rw [if_pos hq, if_pos (by omega)]
  · rw [if_neg hq, if_neg (by omega), reflect_apply]

/-- Updating commutes with reflection. -/
theorem put_reflect (reach c : ℤ) (m : ℤ →₀ ℤ) (p v : ℤ) :
    put reach (reflect c m) (c - p) v = reflect c (put reach m p v) := by
  have hiff : reflect c m = 0 ∨ Within reach (reflect c m) (c - p) ↔ m = 0 ∨ Within reach m p := by
    rw [reflect_eq_zero_iff, within_reflect_iff]
  unfold put
  by_cases hv : v = 0
  · rw [if_pos hv, if_pos hv, erase_reflect]
  · rw [if_neg hv, if_neg hv]
    by_cases hin : m = 0 ∨ Within reach m p
    · rw [if_pos (hiff.mpr hin), if_pos hin, update_reflect]
    · rw [if_neg (mt hiff.mp hin), if_neg hin]

/-- Keys in descending order are the keys of the reflected map in ascending order. -/
theorem sort_reflect (c : ℤ) (m : ℤ →₀ ℤ) :
    m.support.sort (· ≥ ·) = ((reflect c m).support.sort).map (fun p => c - p) := by
  have hsorted : (((reflect c m).support.sort).map (fun p => c - p)).Pairwise (· > ·) := by
    rw [List.pairwise_map]
    refine ((reflect c m).support.sortedLT_sort).pairwise.imp ?_
    intro p q hpq
    omega
  have hset : (((reflect c m).support.sort).map (fun p => c - p)).toFinset = m.support := by
    ext p
    rw [List.mem_toFinset, List.mem_map]
    constructor
    · rintro ⟨q, hq, rfl⟩
      rwa [Finset.mem_sort, mem_support_reflect] at hq
    · intro hp
      refine ⟨c - p, ?_, sub_sub_cancel c p⟩
      rwa [Finset.mem_sort, mem_support_reflect, sub_sub_cancel]
  rw [← hset, List.toFinset_sort _ (hsorted.imp ne_of_gt)]
  exact hsorted.imp le_of_lt

theorem mem_support_put {reach : ℤ} {m : ℤ →₀ ℤ} {p v q : ℤ}
    (hq : q ∈ (put reach m p v).support) : q = p ∨ q ∈ m.support := by
  by_cases hqp : q = p
  · exact Or.inl hqp
  · refine Or.inr ?_
    rw [Finsupp.mem_support_iff] at hq ⊢
    unfold put at hq
    split at hq
    · rwa [Finsupp.erase_ne hqp] at hq
    · split at hq
      · rwa [Finsupp.update_apply, if_neg hqp] at hq
      · exact hq

/-- Only keys of the run are ever stored. -/
theorem mem_support_putAll {reach : ℤ} {m : ℤ →₀ ℤ} {us : List (ℤ × ℤ)} {q : ℤ}
    (hq : q ∈ (putAll reach m us).support) : q ∈ m.support ∨ ∃ u ∈ us, u.1 = q := by
  induction us generalizing m with
  | nil => exact Or.inl hq
  | cons u us ih =>
    rcases ih hq with hput | ⟨u', hu', rfl⟩
    · rcases mem_support_put hput with rfl | hm
      · exact Or.inr ⟨u, List.mem_cons_self, rfl⟩
      · exact Or.inl hm
    · exact Or.inr ⟨u', List.mem_cons_of_mem u hu', rfl⟩

/-! ### Windows that represent a map -/

namespace Window

variable {n : ℕ}

/-- The slots in the order in which a walk up from the best slot meets them. -/
def tour [NeZero n] (w : Window n ℤ) : List (Fin n) := (List.range n).map (above w.best)

variable {w : Window n ℤ} {base : ℤ} {m : ℤ →₀ ℤ}

/-- The levels of the window are the entries of m, the key base + i in slot i. -/
structure Represents (w : Window n ℤ) (base : ℤ) (m : ℤ →₀ ℤ) : Prop where
  tight : w.Tight
  keys : ∀ i, w.Active i → w.key i = base + i.val
  values : ∀ i, w.Active i → m (base + i.val) = (w.slot i).value
  absent : ∀ i, ¬ w.Active i → m (base + i.val) = 0
  nonzero : ∀ i, w.Active i → (w.slot i).value ≠ 0
  block : ∀ p, m p ≠ 0 → ∃ i : Fin n, p = base + i.val

namespace Represents

theorem of_empty (h : w.Empty) : w.Represents base 0 where
  tight := .of_empty h
  keys i hi := absurd hi (h.2 i)
  values i hi := absurd hi (h.2 i)
  absent _ _ := Finsupp.zero_apply
  nonzero i hi := absurd hi (h.2 i)
  block _ hp := absurd Finsupp.zero_apply hp

theorem active_iff (h : w.Represents base m) (i : Fin n) :
    w.Active i ↔ m (base + i.val) ≠ 0 := by
  constructor
  · intro hi
    rw [h.values i hi]
    exact h.nonzero i hi
  · intro hne
    by_contra hi
    exact hne (h.absent i hi)

theorem value_eq (h : w.Represents base m) {i : Fin n} (hi : w.Active i) :
    (w.slot i).value = m (w.key i) := by
  rw [h.keys i hi, h.values i hi]

theorem mem_support_iff (h : w.Represents base m) (p : ℤ) :
    p ∈ m.support ↔ ∃ i, w.Active i ∧ w.key i = p := by
  rw [Finsupp.mem_support_iff]
  constructor
  · intro hp
    obtain ⟨i, rfl⟩ := h.block p hp
    have hi := (h.active_iff i).mpr hp
    exact ⟨i, hi, h.keys i hi⟩
  · rintro ⟨i, hi, rfl⟩
    rw [h.keys i hi]
    exact (h.active_iff i).mp hi

theorem eq_zero_iff (h : w.Represents base m) : m = 0 ↔ w.count = 0 := by
  rw [h.tight.count_eq, activeCount_eq_zero_iff]
  constructor
  · rintro rfl i
    rw [h.active_iff, Finsupp.zero_apply]
    exact not_not_intro rfl
  · intro hnone
    ext p
    rw [Finsupp.zero_apply]
    by_contra hp
    obtain ⟨i, hi, _⟩ := (h.mem_support_iff p).mp (Finsupp.mem_support_iff.mpr hp)
    exact hnone i hi

theorem isLeast_best (h : w.Represents base m) (hcount : 0 < w.count) :
    IsLeast (m.support : Set ℤ) (w.key w.best) := by
  refine ⟨(h.mem_support_iff _).mpr ⟨_, h.tight.best_active hcount, rfl⟩, ?_⟩
  intro p hp
  obtain ⟨i, hi, rfl⟩ := (h.mem_support_iff p).mp hp
  exact h.tight.lower i hi

theorem isGreatest_worst (h : w.Represents base m) (hcount : 0 < w.count) :
    IsGreatest (m.support : Set ℤ) (w.key w.worst) := by
  refine ⟨(h.mem_support_iff _).mpr ⟨_, h.tight.worst_active hcount, rfl⟩, ?_⟩
  intro p hp
  obtain ⟨i, hi, rfl⟩ := (h.mem_support_iff p).mp hp
  exact h.tight.upper i hi

theorem within_iff (h : w.Represents base m) (hcount : 0 < w.count) (reach p : ℤ) :
    Within reach m p ↔ w.key w.best - reach ≤ p ∧ p ≤ w.key w.worst + reach := by
  constructor
  · rintro ⟨lo, hi, hlo, hhi, hlow, hhigh⟩
    rw [(h.isLeast_best hcount).unique hlo, (h.isGreatest_worst hcount).unique hhi]
    exact ⟨hlow, hhigh⟩
  · rintro ⟨hlow, hhigh⟩
    exact ⟨_, _, h.isLeast_best hcount, h.isGreatest_worst hcount, hlow, hhigh⟩

theorem add_val_ne {i j : Fin n} (hij : i ≠ j) : base + (i.val : ℤ) ≠ base + j.val := by
  have hval : i.val ≠ j.val := fun hv => hij (Fin.ext hv)
  omega

/-- Filling the slot of a key of the block. -/
theorem write (h : w.Represents base m) (j : Fin n) {v : ℤ} (hv : v ≠ 0) {b e : Fin n} {count : ℕ}
    (htight : (w.write j (base + j.val) v b e count).Tight) :
    (w.write j (base + j.val) v b e count).Represents base (m.update (base + j.val) v) := by
  have hself : ((w.write j (base + j.val) v b e count).slot j).value = v := by
    simp [Window.write]
  have hslot : ∀ {i}, i ≠ j → (w.write j (base + j.val) v b e count).slot i = w.slot i := by
    intro i hij
    simp [Window.write, hij]
  have hold : ∀ {i}, i ≠ j → (w.write j (base + j.val) v b e count).Active i → w.Active i :=
    fun hij hi => ((active_write _ _ _ _ _ _ _ _).mp hi).resolve_left hij
  refine ⟨htight, ?_, ?_, ?_, ?_, ?_⟩
  · intro i hi
    by_cases hij : i = j
    · rw [hij, key_write_self]
    · rw [key_write_of_ne _ _ _ _ _ _ _ _ hij]
      exact h.keys i (hold hij hi)
  · intro i hi
    rw [Finsupp.update_apply]
    by_cases hij : i = j
    · rw [hij, if_pos rfl, hself]
    · rw [if_neg (add_val_ne hij), hslot hij]
      exact h.values i (hold hij hi)
  · intro i hi
    rw [active_write, not_or] at hi
    rw [Finsupp.update_apply, if_neg (add_val_ne hi.1)]
    exact h.absent i hi.2
  · intro i hi
    by_cases hij : i = j
    · rwa [hij, hself]
    · rw [hslot hij]
      exact h.nonzero i (hold hij hi)
  · intro p hp
    rw [Finsupp.update_apply] at hp
    split at hp
    · rename_i hpj
      exact ⟨j, hpj⟩
    · exact h.block p hp

theorem clear (h : w.Represents base m) (j : Fin n) {b e : Fin n}
    (htight : ((w.clear j).withEnds b e).Tight) :
    ((w.clear j).withEnds b e).Represents base (m.erase (base + j.val)) := by
  have hslot : ∀ {i}, i ≠ j → ((w.clear j).withEnds b e).slot i = w.slot i := by
    intro i hij
    simp [Window.clear, withEnds, hij]
  have hold : ∀ {i}, ((w.clear j).withEnds b e).Active i → i ≠ j ∧ w.Active i :=
    fun hi => (active_clear w j _).mp hi
  refine ⟨htight, ?_, ?_, ?_, ?_, ?_⟩
  · intro i hi
    change (w.clear j).key i = _
    rw [key_clear]
    exact h.keys i (hold hi).2
  · intro i hi
    obtain ⟨hij, hactive⟩ := hold hi
    rw [Finsupp.erase_ne (add_val_ne hij), hslot hij]
    exact h.values i hactive
  · intro i hi
    by_cases hij : i = j
    · rw [hij, Finsupp.erase_same]
    · rw [Finsupp.erase_ne (add_val_ne hij)]
      exact h.absent i (fun hactive => hi ((active_clear w j i).mpr ⟨hij, hactive⟩))
  · intro i hi
    obtain ⟨hij, hactive⟩ := hold hi
    rw [hslot hij]
    exact h.nonzero i hactive
  · intro p hp
    by_cases hpj : p = base + j.val
    · exact ⟨j, hpj⟩
    · rw [Finsupp.erase_ne hpj] at hp
      exact h.block p hp

variable [NeZero n]

theorem count_eq_card (h : w.Represents base m) : w.count = m.support.card := by
  have himage : m.support = (Finset.univ.filter w.Active).image w.key := by
    ext p
    rw [h.mem_support_iff, Finset.mem_image]
    simp only [Finset.mem_filter, Finset.mem_univ, true_and]
  rw [himage, Finset.card_image_of_injOn, h.tight.count_eq]
  · rfl
  · intro i hi j hj hkey
    rw [Finset.mem_coe, Finset.mem_filter] at hi hj
    exact h.tight.aligned.key_injective hi.2 hj.2 hkey

theorem indexOf_eq (h : w.Represents base m) (hcount : 0 < w.count) (j : Fin n) :
    w.indexOf (base + j.val) = j := by
  rw [indexOf_eq_iff, anchor, h.keys _ (h.tight.best_active hcount)]
  simp

theorem fits (h : w.Represents base m) (hcount : 0 < w.count) (j : Fin n) :
    Tight.Fits w (base + j.val) := by
  have hbest := h.keys _ (h.tight.best_active hcount)
  have hworst := h.keys _ (h.tight.worst_active hcount)
  have hj := j.isLt
  have hw := w.worst.isLt
  exact Or.inr ⟨by omega, by omega⟩

/-- An insertion whose guard is the reach of the map is an update of the map. -/
theorem insert (h : w.Represents base m) {k : ℕ} (hk : n < k) (reach : ℤ) (hreach : 0 ≤ reach)
    (accept : Bool) (j : Fin n) {v : ℤ} (hv : v ≠ 0)
    (haccept : 0 < w.count → (accept = true ↔ Within reach m (base + j.val))) :
    (w.insert k accept j (base + j.val) v).Represents base (put reach m (base + j.val) v) := by
  have htight := h.tight.insert hk accept j (base + j.val) v (fun _ hcount => h.fits hcount j)
  have hspec := insert_spec k accept j w (base + j.val) v
  unfold put
  rw [if_neg hv]
  generalize w.insert k accept j (base + j.val) v = w' at hspec htight ⊢
  cases hspec with
  | first hcount =>
    rw [if_pos (Or.inl (h.eq_zero_iff.mpr hcount))]
    exact h.write j hv htight
  | drop hcount hreject =>
    have hm : m ≠ 0 := fun hzero => hcount.ne' (h.eq_zero_iff.mp hzero)
    have hout : ¬ Within reach m (base + j.val) := by
      rw [← haccept hcount, hreject]
      exact Bool.false_ne_true
    rw [if_neg (not_or_intro hm hout)]
    exact h
  | replace hcount ha hbw hi =>
    rw [h.indexOf_eq hcount] at hi
    rw [if_pos (Or.inr ((haccept hcount).mp ha))]
    rw [← hi] at htight ⊢
    exact h.write j hv htight
  | inside hcount hbw hlow hhigh =>
    have hin := (h.within_iff hcount reach (base + j.val)).mpr ⟨by omega, by omega⟩
    rw [if_pos (Or.inr hin)]
    rw [h.indexOf_eq hcount] at htight ⊢
    exact h.write j hv htight
  | lower hcount ha hlow hi =>
    rw [if_pos (Or.inr ((haccept hcount).mp ha))]
    rw [h.indexOf_eq hcount] at htight ⊢
    exact h.write j hv htight
  | raise hcount ha hhigh hi =>
    rw [if_pos (Or.inr ((haccept hcount).mp ha))]
    rw [h.indexOf_eq hcount] at htight ⊢
    exact h.write j hv htight

theorem remove (h : w.Represents base m) (rest : Fin n) (j : Fin n) :
    (w.remove rest (base + j.val)).Represents base (m.erase (base + j.val)) := by
  by_cases hcount : w.count = 0
  · have hm := h.eq_zero_iff.mpr hcount
    rw [Window.remove, if_pos hcount, hm, Finsupp.erase_zero, ← hm]
    exact h
  have htight := h.tight.remove rest (base + j.val)
  have hspec := remove_spec rest w (base + j.val)
  generalize w.remove rest (base + j.val) = w' at hspec htight ⊢
  rw [h.indexOf_eq (Nat.pos_of_ne_zero hcount)] at hspec
  cases hspec with
  | absent habsent =>
    have hj := habsent.resolve_left hcount
    rw [Finsupp.erase_of_notMem_support (Finsupp.notMem_support_iff.mpr (h.absent j hj))]
    exact h
  | last => exact h.clear j htight
  | best => exact h.clear j htight
  | worst => exact h.clear j htight
  | inner => exact h.clear j htight

/-! ### The walk round the ring from the best slot -/

theorem mem_tour (w : Window n ℤ) (i : Fin n) : i ∈ w.tour := by
  rw [tour, List.mem_map]
  by_cases hi : i = w.best
  · refine ⟨0, List.mem_range.mpr (Nat.pos_of_ne_zero (NeZero.ne n)), ?_⟩
    rw [hi, above_eq_iff]
    simp
  · obtain ⟨d, _, hdn, hd⟩ := exists_above w.best i hi
    exact ⟨d, List.mem_range.mpr hdn, hd⟩

theorem nodup_tour (w : Window n ℤ) : w.tour.Nodup := by
  refine List.Nodup.map_on ?_ List.nodup_range
  intro d hd e he heq
  rw [List.mem_range] at hd he
  have hd' := (above_eq_iff w.best (above w.best e) d).mp heq
  have he' := (above_eq_iff w.best (above w.best e) e).mp rfl
  have hmod : (w.best.val + d : ℤ) = w.best.val + e :=
    eq_of_modEq_of_lt (hd'.trans he'.symm) (by omega) (by omega)
  omega

/-- The walk meets the levels in ascending order of their keys. -/
theorem pairwise_tour (h : w.Tight) :
    (w.tour.filter (fun i => (w.slot i).active)).Pairwise (fun i j => w.key i < w.key j) := by
  rw [List.pairwise_filter, tour, List.pairwise_map]
  refine List.Pairwise.imp_of_mem ?_ (List.pairwise_lt_range)
  intro d e hd he hde hactive hactive'
  rw [List.mem_range] at hd he
  rw [h.key_above_best hd hactive, h.key_above_best he hactive']
  omega

theorem keys_tour (h : w.Represents base m) :
    (w.tour.filter (fun i => (w.slot i).active)).map w.key = m.support.sort := by
  have hsorted : ((w.tour.filter (fun i => (w.slot i).active)).map w.key).Pairwise (· < ·) :=
    List.pairwise_map.mpr (pairwise_tour h.tight)
  have hset : ((w.tour.filter (fun i => (w.slot i).active)).map w.key).toFinset = m.support := by
    ext p
    rw [List.mem_toFinset, List.mem_map, h.mem_support_iff]
    constructor
    · rintro ⟨i, hi, rfl⟩
      exact ⟨i, (List.mem_filter.mp hi).2, rfl⟩
    · rintro ⟨i, hi, rfl⟩
      exact ⟨i, List.mem_filter.mpr ⟨mem_tour w i, hi⟩, rfl⟩
  rw [← hset]
  symm
  rw [List.toFinset_sort _ (hsorted.imp ne_of_lt)]
  exact hsorted.imp le_of_lt

end Represents

end Window

end HftSystem.CircularWindow
