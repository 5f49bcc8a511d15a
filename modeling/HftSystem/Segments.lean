import Mathlib.Data.List.TakeWhile

/-!
The segments of a list that a separator ends. Unlike a split, the list does not have
an empty last segment after its last separator; a last segment may lack its separator.
-/
namespace HftSystem.Segments

variable {α : Type*} [DecidableEq α] {sep : α}

def segments (sep : α) : List α → List (List α)
  | [] => []
  | a :: l =>
    if a = sep then [] :: segments sep l
    else
      match segments sep l with
      | [] => [[a]]
      | s :: ss => (a :: s) :: ss

/-- The part in front of the first separator. -/
def first (sep : α) (l : List α) : List α := l.takeWhile (fun a => a ≠ sep)

/-- The part behind the first separator. -/
def afterFirst (sep : α) (l : List α) : List α := (l.dropWhile (fun a => a ≠ sep)).drop 1

theorem first_cons_self (l : List α) : first sep (sep :: l) = [] := by
  simp [first]

theorem afterFirst_cons_self (l : List α) : afterFirst sep (sep :: l) = l := by
  simp [afterFirst]

theorem first_cons_of_ne {a : α} (ha : a ≠ sep) (l : List α) :
    first sep (a :: l) = a :: first sep l := by
  simp [first, ha]

theorem afterFirst_cons_of_ne {a : α} (ha : a ≠ sep) (l : List α) :
    afterFirst sep (a :: l) = afterFirst sep l := by
  simp [afterFirst, ha]

theorem segments_of_ne_nil {l : List α} (hl : l ≠ []) :
    segments sep l = first sep l :: segments sep (afterFirst sep l) := by
  induction l with
  | nil => exact absurd rfl hl
  | cons a l ih =>
    by_cases ha : a = sep
    · subst ha
      rw [first_cons_self, afterFirst_cons_self, segments, if_pos rfl]
    · rw [first_cons_of_ne ha, afterFirst_cons_of_ne ha, segments, if_neg ha]
      cases l with
      | nil => rfl
      | cons b l => rw [ih (List.cons_ne_nil b l)]

theorem not_mem_first (l : List α) : sep ∉ first sep l := by
  intro hmem
  have h := List.mem_takeWhile_imp hmem
  simp at h

theorem first_of_not_mem {l : List α} (hl : sep ∉ l) : first sep l = l := by
  refine List.takeWhile_eq_self_iff.mpr (fun a ha => ?_)
  exact decide_eq_true (fun heq => hl (heq ▸ ha))

theorem afterFirst_of_not_mem {l : List α} (hl : sep ∉ l) : afterFirst sep l = [] := by
  have hdrop : l.dropWhile (fun a => a ≠ sep) = [] := by
    refine List.dropWhile_eq_nil_iff.mpr (fun a ha => ?_)
    exact decide_eq_true (fun heq => hl (heq ▸ ha))
  rw [afterFirst, hdrop, List.drop_nil]

theorem first_append {s : List α} (hs : sep ∉ s) (l : List α) :
    first sep (s ++ l) = s ++ first sep l := by
  refine List.takeWhile_append_of_pos (fun a ha => ?_)
  exact decide_eq_true (fun heq => hs (heq ▸ ha))

theorem afterFirst_append {s : List α} (hs : sep ∉ s) (l : List α) :
    afterFirst sep (s ++ l) = afterFirst sep l := by
  have hdrop : (s ++ l).dropWhile (fun a => a ≠ sep) = l.dropWhile (fun a => a ≠ sep) := by
    refine List.dropWhile_append_of_pos (fun a ha => ?_)
    exact decide_eq_true (fun heq => hs (heq ▸ ha))
  rw [afterFirst, hdrop, afterFirst]

/-- A list is cut at its first separator, if it has one. -/
theorem first_append_afterFirst {l : List α} (hl : sep ∈ l) :
    l = first sep l ++ sep :: afterFirst sep l := by
  induction l with
  | nil => exact absurd hl List.not_mem_nil
  | cons a l ih =>
    by_cases ha : a = sep
    · subst ha
      rw [first_cons_self, afterFirst_cons_self, List.nil_append]
    · have hmem : sep ∈ l := by
        rcases List.mem_cons.mp hl with heq | hmem
        · exact absurd heq.symm ha
        · exact hmem
      rw [first_cons_of_ne ha, afterFirst_cons_of_ne ha, List.cons_append, ← ih hmem]

theorem first_append_of_mem {l : List α} (hl : sep ∈ l) (l' : List α) :
    first sep (l ++ l') = first sep l := by
  have hsplit : l ++ l' = first sep l ++ sep :: (afterFirst sep l ++ l') := by
    rw [← List.cons_append, ← List.append_assoc, ← first_append_afterFirst hl]
  rw [hsplit, first_append (not_mem_first l), first_cons_self, List.append_nil]

theorem afterFirst_append_of_mem {l : List α} (hl : sep ∈ l) (l' : List α) :
    afterFirst sep (l ++ l') = afterFirst sep l ++ l' := by
  have hsplit : l ++ l' = first sep l ++ sep :: (afterFirst sep l ++ l') := by
    rw [← List.cons_append, ← List.append_assoc, ← first_append_afterFirst hl]
  rw [hsplit, afterFirst_append (not_mem_first l), afterFirst_cons_self]

theorem segments_append_sep {s : List α} (hs : sep ∉ s) (l : List α) :
    segments sep (s ++ sep :: l) = s :: segments sep l := by
  have hne : s ++ sep :: l ≠ [] := by simp
  rw [segments_of_ne_nil hne, first_append hs, first_cons_self, List.append_nil,
    afterFirst_append hs, afterFirst_cons_self]

/-- A list of segments is read back from its rendering. -/
theorem segments_flatMap {ss : List (List α)} (hss : ∀ s ∈ ss, sep ∉ s) :
    segments sep (ss.flatMap (fun s => s ++ [sep])) = ss := by
  induction ss with
  | nil => rfl
  | cons s ss ih =>
    obtain ⟨hs, hss⟩ := List.forall_mem_cons.mp hss
    rw [List.flatMap_cons, List.append_assoc, List.singleton_append, segments_append_sep hs, ih hss]

theorem segments_of_not_mem {s : List α} (hs : sep ∉ s) (hne : s ≠ []) : segments sep s = [s] := by
  rw [segments_of_ne_nil hne, first_of_not_mem hs, afterFirst_of_not_mem hs]
  rfl

theorem not_mem_of_mem_segments {s l : List α} (h : s ∈ segments sep l) : sep ∉ s := by
  induction l generalizing s with
  | nil => cases h
  | cons a l ih =>
    unfold segments at h
    split at h
    · rcases List.mem_cons.mp h with rfl | h
      · exact List.not_mem_nil
      · exact ih h
    · rename_i ha
      have hcons : ∀ t, sep ∉ t → sep ∉ a :: t := by
        intro t ht hmem
        rcases List.mem_cons.mp hmem with heq | hmem
        · exact ha heq.symm
        · exact ht hmem
      split at h
      · rw [List.mem_singleton.mp h]
        exact hcons [] List.not_mem_nil
      · rename_i t ts htail
        rw [htail] at ih
        rcases List.mem_cons.mp h with rfl | h
        · exact hcons t (ih List.mem_cons_self)
        · exact ih (List.mem_cons_of_mem _ h)

omit [DecidableEq α] in
theorem mem_intercalate_of_mem {a : α} {sep s : List α} {ss : List (List α)} (hs : s ∈ ss)
    (ha : a ∈ s) : a ∈ sep.intercalate ss := by
  induction ss with
  | nil => cases hs
  | cons s' ss ih =>
    cases ss with
    | nil =>
      rw [List.intercalate_singleton, ← List.mem_singleton.mp hs]
      exact ha
    | cons s'' ss =>
      rw [List.intercalate_cons_cons]
      rcases List.mem_cons.mp hs with rfl | hs
      · exact List.mem_append_left _ (List.mem_append_left _ ha)
      · exact List.mem_append_right _ (ih hs)

omit [DecidableEq α] in
theorem intercalate_concat (sep : α) (ss : List (List α)) (s : List α) :
    [sep].intercalate (ss ++ [s]) =
      [sep].intercalate ss ++ (if ss = [] then [] else [sep]) ++ s := by
  induction ss with
  | nil => rw [List.nil_append, List.intercalate_singleton, if_pos rfl, List.intercalate_nil]; rfl
  | cons s' ss ih =>
    cases ss with
    | nil => simp
    | cons s'' ss =>
      rw [List.cons_append, List.cons_append, List.intercalate_cons_cons, ← List.cons_append, ih,
        List.intercalate_cons_cons]
      simp

/-- The last separator may be left out. -/
theorem segments_intercalate {ss : List (List α)} (hss : ∀ s ∈ ss, sep ∉ s)
    (hne : ∀ s ∈ ss, s ≠ []) : segments sep ([sep].intercalate ss) = ss := by
  induction ss with
  | nil => rfl
  | cons s ss ih =>
    obtain ⟨hs, hss⟩ := List.forall_mem_cons.mp hss
    obtain ⟨hsne, hne⟩ := List.forall_mem_cons.mp hne
    cases ss with
    | nil =>
      rw [List.intercalate_singleton]
      exact segments_of_not_mem hs hsne
    | cons s' ss =>
      rw [List.intercalate_cons_cons, List.append_assoc, List.singleton_append,
        segments_append_sep hs, ih hss hne]

end HftSystem.Segments
