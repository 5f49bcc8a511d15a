import Mathlib.Data.List.Induction
import Mathlib.Data.List.Nodup

/-!
The first and the last occurrences of the elements of a list, for lists that grow at
their end: the distinct elements in the order of their first occurrences, and the
position of the last occurrence of an element.
-/
namespace HftSystem.Occurrences

variable {α β : Type*} [BEq α] [LawfulBEq α] [BEq β] [LawfulBEq β]

/-! ### First occurrences -/

theorem eraseDups_concat_of_mem {l : List α} {a : α} (ha : a ∈ l) :
    (l ++ [a]).eraseDups = l.eraseDups := by
  rw [List.eraseDups_append]
  simp [List.removeAll, ha]

theorem eraseDups_concat_of_notMem {l : List α} {a : α} (ha : a ∉ l) :
    (l ++ [a]).eraseDups = l.eraseDups ++ [a] := by
  rw [List.eraseDups_append]
  simp [List.removeAll, ha, List.eraseDups_cons]

theorem nodup_eraseDups (l : List α) : l.eraseDups.Nodup := by
  induction l using List.reverseRecOn with
  | nil => exact List.nodup_nil
  | append_singleton l a ih =>
    by_cases ha : a ∈ l
    · rwa [eraseDups_concat_of_mem ha]
    · have hnew : a ∉ l.eraseDups := by rwa [List.mem_eraseDups]
      rw [eraseDups_concat_of_notMem ha, ← List.concat_eq_append]
      exact List.Nodup.concat hnew ih

/-! ### Last occurrences -/

omit [BEq α] [LawfulBEq α] in
theorem mem_of_mem_concat {l : List α} {a b : α} (ha : a ∈ l ++ [b]) (hne : b ≠ a) : a ∈ l := by
  rcases List.mem_append.mp ha with hmem | hmem
  · exact hmem
  · exact absurd (List.mem_singleton.mp hmem).symm hne

def lastIdxOf (l : List α) (a : α) : ℕ := l.length - 1 - l.reverse.idxOf a

theorem lastIdxOf_concat_self (l : List α) (a : α) : lastIdxOf (l ++ [a]) a = l.length := by
  rw [lastIdxOf, List.reverse_append, List.reverse_singleton, List.singleton_append,
    List.idxOf_cons_self, List.length_append, List.length_singleton]
  rfl

theorem lastIdxOf_concat_ne {l : List α} {a b : α} (ha : a ∈ l) (hne : b ≠ a) :
    lastIdxOf (l ++ [b]) a = lastIdxOf l a := by
  have hlt : l.reverse.idxOf a < l.reverse.length :=
    List.idxOf_lt_length_of_mem (List.mem_reverse.mpr ha)
  rw [List.length_reverse] at hlt
  rw [lastIdxOf, lastIdxOf, List.reverse_append, List.reverse_singleton, List.singleton_append,
    List.idxOf_cons_ne _ hne, List.length_append, List.length_singleton]
  omega

omit [LawfulBEq α] in
theorem lastIdxOf_lt_length {l : List α} {a : α} (ha : a ∈ l) : lastIdxOf l a < l.length := by
  have hpos := List.length_pos_of_mem ha
  rw [lastIdxOf]
  omega

theorem getElem?_lastIdxOf {l : List α} {a : α} (ha : a ∈ l) : l[lastIdxOf l a]? = some a := by
  induction l using List.reverseRecOn with
  | nil => exact absurd ha (by simp)
  | append_singleton l b ih =>
    by_cases hb : b = a
    · rw [hb, lastIdxOf_concat_self, List.getElem?_concat_length]
    · have hmem := mem_of_mem_concat ha hb
      rw [lastIdxOf_concat_ne hmem hb, List.getElem?_append_left (lastIdxOf_lt_length hmem),
        ih hmem]

/-- Different elements have different last occurrences. -/
theorem lastIdxOf_inj {l : List α} {a b : α} (ha : a ∈ l) (hb : b ∈ l)
    (h : lastIdxOf l a = lastIdxOf l b) : a = b := by
  have hget := getElem?_lastIdxOf ha
  rw [h, getElem?_lastIdxOf hb] at hget
  exact (Option.some.inj hget).symm

/-- A map that keeps the elements apart keeps their last occurrences. -/
theorem lastIdxOf_map {l : List α} {f : α → β} {a : α} (ha : a ∈ l)
    (hinj : ∀ b ∈ l, f b = f a → b = a) : lastIdxOf (l.map f) (f a) = lastIdxOf l a := by
  induction l using List.reverseRecOn with
  | nil => exact absurd ha (by simp)
  | append_singleton l b ih =>
    rw [List.map_append, List.map_singleton]
    by_cases hb : b = a
    · rw [hb, lastIdxOf_concat_self, lastIdxOf_concat_self, List.length_map]
    · have hmem := mem_of_mem_concat ha hb
      have hne : f b ≠ f a := fun h => hb (hinj b (by simp) h)
      rw [lastIdxOf_concat_ne (List.mem_map_of_mem hmem) hne, lastIdxOf_concat_ne hmem hb]
      exact ih hmem (fun c hc => hinj c (List.mem_append_left _ hc))

end HftSystem.Occurrences
