import Mathlib.Data.List.Sort
import Mathlib.Order.Monotone.Basic

/-!
The elements of a list by rank. In a sorted list the elements that satisfy a downward
closed condition form the first part, so ranks are compared with counts. For a
monotone key this places the element of a given rank among cumulative counts of keys.
-/
namespace HftSystem.OrderStatistics

variable {α : Type*} [LinearOrder α]

/-- The elements in increasing order. -/
def ascending (l : List α) : List α := l.insertionSort (· ≤ ·)

theorem length_ascending (l : List α) : (ascending l).length = l.length :=
  List.length_insertionSort _ l

theorem countP_ascending (p : α → Bool) (l : List α) : (ascending l).countP p = l.countP p :=
  (List.perm_insertionSort _ l).countP_eq p

theorem pairwise_ascending (l : List α) : (ascending l).Pairwise (· ≤ ·) :=
  List.pairwise_insertionSort _ l

theorem ascending_mono {l : List α} {i j : ℕ} (hij : i ≤ j) (hj : j < (ascending l).length) :
    (ascending l)[i] ≤ (ascending l)[j] := by
  rcases hij.eq_or_lt with rfl | hlt
  · exact le_refl _
  · exact List.pairwise_iff_getElem.mp (pairwise_ascending l) i j (by omega) hj hlt

/-- The elements that satisfy a downward closed condition come first. -/
theorem getElem_iff_lt_countP {l : List α} (hsorted : l.Pairwise (· ≤ ·)) {p : α → Bool}
    (hdown : ∀ a b, a ≤ b → p b → p a) {i : ℕ} (hi : i < l.length) :
    p l[i] ↔ i < l.countP p := by
  induction l generalizing i with
  | nil => simp at hi
  | cons a l ih =>
    obtain ⟨hfirst, hrest⟩ := List.pairwise_cons.mp hsorted
    by_cases ha : p a
    · rw [List.countP_cons_of_pos ha]
      cases i with
      | zero => simpa using ha
      | succ i =>
        rw [List.getElem_cons_succ, ih hrest]
        omega
    · -- nothing after an element outside satisfies the condition
      have hnone : ∀ b ∈ a :: l, ¬ p b := by
        intro b hb hp
        rcases List.mem_cons.mp hb with rfl | hb
        · exact ha hp
        · exact ha (hdown a b (hfirst b hb) hp)
      rw [List.countP_eq_zero.mpr hnone]
      simpa using hnone _ (List.getElem_mem hi)

/-! ### Keys -/

variable {key : α → ℕ}

theorem key_ascending_lt_iff (hkey : Monotone key) {l : List α} {i k : ℕ}
    (hi : i < (ascending l).length) :
    key (ascending l)[i] < k ↔ i < l.countP (fun a => key a < k) := by
  have hdown : ∀ a b, a ≤ b → decide (key b < k) = true → decide (key a < k) = true := by
    intro a b hab hb
    rw [decide_eq_true_eq] at hb ⊢
    exact lt_of_le_of_lt (hkey hab) hb
  have h := getElem_iff_lt_countP (pairwise_ascending l) hdown hi
  rwa [decide_eq_true_eq, countP_ascending] at h

/-- The key of the element of rank i is the first one whose cumulative count exceeds i. -/
theorem key_ascending_eq (hkey : Monotone key) {l : List α} {i k : ℕ}
    (hi : i < (ascending l).length) (hbelow : l.countP (fun a => key a < k) ≤ i)
    (habove : i < l.countP (fun a => key a < k + 1)) : key (ascending l)[i] = k := by
  have hlow : ¬ key (ascending l)[i] < k := by
    rw [key_ascending_lt_iff hkey hi]
    omega
  have hhigh : key (ascending l)[i] < k + 1 := (key_ascending_lt_iff hkey hi).mpr habove
  omega

omit [LinearOrder α] in
theorem countP_key_lt_succ (l : List α) (k : ℕ) :
    l.countP (fun a => key a < k + 1) =
      l.countP (fun a => key a < k) + l.countP (fun a => key a = k) := by
  induction l with
  | nil => rfl
  | cons a l ih =>
    simp only [List.countP_cons, ih, decide_eq_true_eq]
    rcases lt_trichotomy (key a) k with hlt | heq | hgt
    · rw [if_pos (by omega), if_pos hlt, if_neg (by omega)]
      omega
    · rw [if_pos (by omega), if_neg (by omega), if_pos heq]
      omega
    · rw [if_neg (by omega), if_neg (by omega), if_neg (by omega)]
      omega

omit [LinearOrder α] in
theorem countP_key_lt_bound {l : List α} {n : ℕ} (hbound : ∀ a ∈ l, key a < n) :
    l.countP (fun a => key a < n) = l.length := by
  rw [List.countP_eq_length]
  intro a ha
  simpa using hbound a ha

end HftSystem.OrderStatistics
