import Mathlib.Data.List.Infix

/-!
Runs of a deterministic transition function over a list of inputs. A condition
on single steps is carried along a run by `StepsMeet`, and what every step that
meets it preserves holds in every state the run reaches. A simulation between two such
systems takes runs to runs, and a measure that is lowered often enough is used up; in an
endless run this is so under every fair schedule.
-/
namespace HftSystem.Transitions

variable {σ α : Type*} {step : σ → α → σ}

/-- Every step of the run meets a condition on the state before it. -/
def StepsMeet (step : σ → α → σ) (C : σ → α → Prop) : σ → List α → Prop
  | _, [] => True
  | s, a :: as => C s a ∧ StepsMeet step C (step s a) as

instance StepsMeet.decidable (step : σ → α → σ) (C : σ → α → Prop) [∀ s a, Decidable (C s a)] :
    (s : σ) → (as : List α) → Decidable (StepsMeet step C s as)
  | _, [] => inferInstanceAs (Decidable True)
  | s, a :: as => @instDecidableAnd _ _ _ (StepsMeet.decidable step C (step s a) as)

/-- What each step preserves holds in every state the run reaches. -/
theorem foldl_invariant {C : σ → α → Prop} {P : σ → Prop}
    (hstep : ∀ s a, C s a → P s → P (step s a)) {s : σ} (hstart : P s)
    {as bs : List α} (hmeet : StepsMeet step C s as) (hinit : bs <+: as) :
    P (bs.foldl step s) := by
  induction as generalizing s bs with
  | nil =>
    rw [List.prefix_nil.mp hinit]
    exact hstart
  | cons a as ih =>
    cases bs with
    | nil => exact hstart
    | cons b bs =>
      obtain ⟨rfl, hrest⟩ := List.cons_prefix_cons.mp hinit
      exact ih (hstep s b hmeet.1 hstart) hmeet.2 hrest

theorem foldl_preserves {P : σ → Prop} (hstep : ∀ s a, P s → P (step s a)) {s : σ} (hstart : P s)
    (as : List α) : P (as.foldl step s) := by
  induction as generalizing s with
  | nil => exact hstart
  | cons a as ih => exact ih (hstep s a hstart)

/-- A run from a state of an invariant that grants the condition meets it. -/
theorem stepsMeet_of_invariant {C : σ → α → Prop} {P : σ → Prop}
    (hstep : ∀ s a, P s → P (step s a)) (hmeets : ∀ s a, P s → C s a) {s : σ} (hstart : P s)
    (as : List α) : StepsMeet step C s as := by
  induction as generalizing s with
  | nil => trivial
  | cons a as ih => exact ⟨hmeets s a hstart, ih (hstep s a hstart)⟩

theorem StepsMeet.mono {C D : σ → α → Prop} (himp : ∀ s a, C s a → D s a) {s : σ} {as : List α}
    (h : StepsMeet step C s as) : StepsMeet step D s as := by
  induction as generalizing s with
  | nil => trivial
  | cons a as ih => exact ⟨himp s a h.1, ih h.2⟩

theorem StepsMeet.left {C : σ → α → Prop} {s : σ} {as bs : List α}
    (h : StepsMeet step C s (as ++ bs)) : StepsMeet step C s as := by
  induction as generalizing s with
  | nil => trivial
  | cons a as ih => exact ⟨h.1, ih h.2⟩

theorem StepsMeet.last {C : σ → α → Prop} {s : σ} {as : List α} {a : α}
    (h : StepsMeet step C s (as ++ [a])) : C (as.foldl step s) a := by
  induction as generalizing s with
  | nil => exact h.1
  | cons b as ih => exact ih h.2

/-- A simulation may stutter: a run whose steps each are a step of the abstract system or leave
the abstract state alone is a run of the abstract system, with some of the inputs left out. -/
theorem exists_abstract_run {τ : Type*} {step' : τ → α → τ} {abs : σ → τ} {P : σ → Prop}
    (hstep : ∀ s a, P s → P (step s a))
    (hsim : ∀ s a, P s → abs (step s a) = abs s ∨ abs (step s a) = step' (abs s) a)
    {s : σ} (hstart : P s) (as : List α) :
    ∃ bs : List α, bs.Sublist as ∧ abs (as.foldl step s) = bs.foldl step' (abs s) := by
  induction as generalizing s with
  | nil => exact ⟨[], List.Sublist.refl _, rfl⟩
  | cons a as ih =>
    obtain ⟨bs, hbs, hrun⟩ := ih (hstep s a hstart)
    rcases hsim s a hstart with hsame | hmove
    · refine ⟨bs, hbs.cons a, ?_⟩
      rw [List.foldl_cons, hrun, hsame]
    · refine ⟨a :: bs, hbs.cons_cons a, ?_⟩
      rw [List.foldl_cons, List.foldl_cons, hrun, hmove]

/-- A run goes through stages that no step leaves again and that given inputs lead out of, as soon
as it has these inputs in their order, with any others in between. -/
theorem foldl_stages {P : ℕ → σ → Prop} (hkeep : ∀ i s a, P i s → P i (step s a))
    {goals as : List α} (hsub : goals.Sublist as) :
    ∀ {i : ℕ} {s : σ}, P i s →
      (∀ j a, goals[j]? = some a → ∀ s, P (i + j) s → P (i + j + 1) (step s a)) →
      P (i + goals.length) (as.foldl step s) := by
  induction hsub with
  | slnil => exact fun hs _ => hs
  | cons a _ ih => exact fun hs hgoal => ih (hkeep _ _ a hs) hgoal
  | @cons_cons goals as a _ ih =>
    intro i s hs hgoal
    have hnext := ih (hgoal 0 a rfl s hs) (fun j b hj t ht => by
      rw [Nat.add_right_comm i 0 1, Nat.add_zero, Nat.add_right_comm i 1 j] at ht ⊢
      exact hgoal (j + 1) b hj t ht)
    rw [List.length_cons, ← Nat.add_assoc, Nat.add_right_comm]
    exact hnext

/-- A measure that no step raises and that certain inputs lower is used up by a run with enough of
these inputs, wherever they stand. -/
theorem foldl_measure {P : σ → Prop} (drops : α → Bool) (measure : σ → ℕ)
    (hinv : ∀ s a, P s → P (step s a)) (hkeep : ∀ s a, P s → measure (step s a) ≤ measure s)
    (hdrop : ∀ s a, P s → drops a = true → measure s ≠ 0 → measure (step s a) < measure s)
    {s : σ} (hstart : P s) (as : List α) :
    measure (as.foldl step s) ≤ measure s - as.countP drops := by
  induction as generalizing s with
  | nil => exact Nat.le_refl _
  | cons a as ih =>
    have hrest := ih (hinv s a hstart)
    have hle := hkeep s a hstart
    rw [List.foldl_cons]
    by_cases ha : drops a = true
    · have hlt := hdrop s a hstart ha
      rw [List.countP_cons_of_pos ha]
      omega
    · rw [List.countP_cons_of_neg ha]
      omega

/-! ### Endless runs -/

/-- The state after each number of steps of a schedule. -/
def states (step : σ → α → σ) (s : σ) (schedule : ℕ → α) : ℕ → σ
  | 0 => s
  | n + 1 => step (states step s schedule n) (schedule n)

/-- Every input comes again and again. -/
def Fair (schedule : ℕ → α) : Prop := ∀ a n, ∃ m, n ≤ m ∧ schedule m = a

section Endless

variable {s : σ} {schedule : ℕ → α} {P : σ → Prop}

theorem states_preserves (hstep : ∀ s a, P s → P (step s a)) {n m : ℕ} (hnm : n ≤ m)
    (hn : P (states step s schedule n)) : P (states step s schedule m) := by
  induction hnm with
  | refl => exact hn
  | step _ ih => exact hstep _ _ ih

/-- A measure that no step raises and that one input lowers reaches 0. -/
theorem Fair.measure_eq_zero (hfair : Fair schedule) (a : α) (measure : σ → ℕ)
    (hinv : ∀ s b, P s → P (step s b)) (hkeep : ∀ s b, P s → measure (step s b) ≤ measure s)
    (hdrop : ∀ s, P s → measure s ≠ 0 → measure (step s a) < measure s) {n : ℕ}
    (hn : P (states step s schedule n)) :
    ∃ m, n ≤ m ∧ P (states step s schedule m) ∧ measure (states step s schedule m) = 0 := by
  obtain ⟨m, hnm, rfl⟩ := hfair a n
  have hm : P (states step s schedule m) ∧
      measure (states step s schedule m) ≤ measure (states step s schedule n) :=
    states_preserves
      (P := fun t => P t ∧ measure t ≤ measure (states step s schedule n))
      (fun t b ht => ⟨hinv t b ht.1, (hkeep t b ht.1).trans ht.2⟩) hnm ⟨hn, Nat.le_refl _⟩
  by_cases hzero : measure (states step s schedule m) = 0
  · exact ⟨m, hnm, hm.1, hzero⟩
  · have hlt : measure (states step s schedule (m + 1)) < measure (states step s schedule n) :=
      (hdrop _ hm.1 hzero).trans_le hm.2
    have hnext : P (states step s schedule (m + 1)) := hinv _ _ hm.1
    obtain ⟨k, hmk, hk⟩ := hfair.measure_eq_zero (schedule m) measure hinv hkeep hdrop hnext
    exact ⟨k, (hnm.trans (Nat.le_succ m)).trans hmk, hk⟩
termination_by measure (states step s schedule n)

end Endless

end HftSystem.Transitions
