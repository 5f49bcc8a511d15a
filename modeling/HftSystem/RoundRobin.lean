import Mathlib.Algebra.BigOperators.Fin
import Mathlib.Tactic.Ring
import Mathlib.Algebra.Order.BigOperators.Group.Finset

/-!
A server that visits k stations in turn and takes at most one item of each on a round.
`work` is a bound on the visits it has left: every visit lowers it, also the visit of
an empty station, since the station that still has items comes nearer.
-/
namespace HftSystem.RoundRobin

variable {k : ℕ}

/-- The number of moves before station i is visited, where the round ends with a move of its
own from position k to position 0. -/
def distance (k turn i : ℕ) : ℕ := if turn ≤ i then i - turn else k + 1 - (turn - i)

/-- A bound on the visits before a station has served all its items. -/
def waiting (k turn i size : ℕ) : ℕ :=
  if size = 0 then 0 else size * (k + 1) + distance k turn i

def work (turn : ℕ) (size : Fin k → ℕ) : ℕ := ∑ i : Fin k, waiting k turn i (size i)

theorem waiting_empty (turn i : ℕ) : waiting k turn i 0 = 0 := if_pos rfl

theorem waiting_of_ne {turn i size : ℕ} (h : size ≠ 0) :
    waiting k turn i size = size * (k + 1) + distance k turn i := if_neg h

theorem distance_moveOn {turn i : ℕ} (hturn : turn < k) (hne : i ≠ turn) :
    distance k (turn + 1) i + 1 = distance k turn i := by
  unfold distance
  split <;> split <;> omega

theorem distance_wrap {i : ℕ} (hi : i < k) : distance k 0 i + 1 = distance k k i := by
  unfold distance
  split <;> split <;> omega

theorem distance_le {turn i : ℕ} (hturn : turn ≤ k) (hi : i < k) : distance k turn i ≤ k := by
  unfold distance
  split <;> omega

/-- Serving one item costs a station its place, but it has one item less to wait for. -/
theorem waiting_serve_lt {turn size : ℕ} (hturn : turn < k) (hsize : size ≠ 0) :
    waiting k (turn + 1) turn (size - 1) < waiting k turn turn size := by
  obtain ⟨size, rfl⟩ := Nat.exists_eq_succ_of_ne_zero hsize
  rw [waiting_of_ne hsize, Nat.succ_mul, Nat.succ_sub_one]
  by_cases hlast : size = 0
  · subst hlast
    rw [waiting_empty]
    omega
  · have hdistance : distance k (turn + 1) turn ≤ k := distance_le hturn (by omega)
    rw [waiting_of_ne hlast]
    omega

theorem exists_waiting {turn : ℕ} {size : Fin k → ℕ} (h : work turn size ≠ 0) :
    ∃ i, size i ≠ 0 := by
  by_contra hnone
  push Not at hnone
  refine h (Finset.sum_eq_zero (fun i _ => ?_))
  rw [hnone i, waiting_empty]

theorem size_eq_zero_of_work {turn : ℕ} {size : Fin k → ℕ} (h : work turn size = 0) (i : Fin k) :
    size i = 0 := by
  by_contra hne
  have hi : waiting k turn i (size i) = 0 := Finset.sum_eq_zero_iff.mp h i (Finset.mem_univ i)
  rw [waiting_of_ne hne] at hi
  have hpos : 0 < size i * (k + 1) := Nat.mul_pos (Nat.pos_of_ne_zero hne) (Nat.succ_pos k)
  omega

theorem work_pos {turn : ℕ} {size : Fin k → ℕ} {i : Fin k} (h : size i ≠ 0) :
    0 < work turn size :=
  Nat.pos_of_ne_zero (fun hzero => h (size_eq_zero_of_work hzero i))

/-- The work falls as soon as no station waits longer than before and one waits less. -/
theorem work_lt {turn turn' : ℕ} {size size' : Fin k → ℕ}
    (hle : ∀ i : Fin k, waiting k turn' i (size' i) ≤ waiting k turn i (size i)) {i : Fin k}
    (hlt : waiting k turn' i (size' i) < waiting k turn i (size i)) :
    work turn' size' < work turn size :=
  Finset.sum_lt_sum (fun j _ => hle j) ⟨i, Finset.mem_univ i, hlt⟩

theorem waiting_le_of_distance {turn turn' i size : ℕ}
    (h : distance k turn' i ≤ distance k turn i) :
    waiting k turn' i size ≤ waiting k turn i size := by
  unfold waiting
  split <;> omega

theorem waiting_lt_of_distance {turn turn' i size : ℕ} (hsize : size ≠ 0)
    (h : distance k turn' i < distance k turn i) :
    waiting k turn' i size < waiting k turn i size := by
  rw [waiting_of_ne hsize, waiting_of_ne hsize]
  omega

/-- The round begins again. -/
theorem work_wrap_lt {size : Fin k → ℕ} (h : work k size ≠ 0) : work 0 size < work k size := by
  obtain ⟨i, hi⟩ := exists_waiting h
  apply work_lt (i := i)
  · intro j
    apply waiting_le_of_distance
    have hj := distance_wrap j.isLt
    omega
  · apply waiting_lt_of_distance hi
    have hwrap := distance_wrap i.isLt
    omega

/-- The visit of an empty station. -/
theorem work_pass_lt {size : Fin k → ℕ} {i : Fin k} (hempty : size i = 0)
    (h : work i size ≠ 0) : work (i + 1) size < work i size := by
  obtain ⟨j, hj⟩ := exists_waiting h
  have hmove : ∀ j : Fin k, j ≠ i → distance k (i + 1) j + 1 = distance k i j :=
    fun j hne => distance_moveOn i.isLt (Fin.val_ne_of_ne hne)
  apply work_lt (i := j)
  · intro l
    by_cases hl : l = i
    · rw [hl, hempty, waiting_empty, waiting_empty]
    · apply waiting_le_of_distance
      have hnear := hmove l hl
      omega
  · apply waiting_lt_of_distance hj
    have hnear := hmove j (fun heq => hj (heq ▸ hempty))
    omega

/-- The visit of a station that serves one item. -/
theorem work_serve_lt {size : Fin k → ℕ} {i : Fin k} (hsize : size i ≠ 0) :
    work (i + 1) (Function.update size i (size i - 1)) < work i size := by
  apply work_lt (i := i)
  · intro j
    by_cases hj : j = i
    · subst hj
      rw [Function.update_self]
      exact (waiting_serve_lt j.isLt hsize).le
    · rw [Function.update_of_ne hj]
      apply waiting_le_of_distance
      have hnear := distance_moveOn i.isLt (Fin.val_ne_of_ne hj)
      omega
  · rw [Function.update_self]
    exact waiting_serve_lt i.isLt hsize

theorem work_le {turn : ℕ} (hturn : turn ≤ k) (size : Fin k → ℕ) :
    work turn size ≤ (2 * k + 1) * ∑ i, size i := by
  rw [Finset.mul_sum]
  apply Finset.sum_le_sum
  intro i _
  by_cases hsize : size i = 0
  · rw [hsize, waiting_empty]
    exact Nat.zero_le _
  · have hdistance := distance_le hturn i.isLt
    have hone : k ≤ k * size i := Nat.le_mul_of_pos_right k (Nat.pos_of_ne_zero hsize)
    calc waiting k turn i (size i) = size i * (k + 1) + distance k turn i := waiting_of_ne hsize
      _ ≤ size i * (k + 1) + k * size i := by omega
      _ = (2 * k + 1) * size i := by ring

end HftSystem.RoundRobin
