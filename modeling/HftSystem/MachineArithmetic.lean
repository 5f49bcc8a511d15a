import HftSystem.Tracing
import HftSystem.TwosComplement
import Mathlib.Algebra.BigOperators.Group.List.Basic
import Mathlib.Algebra.Order.Ring.Abs

/-!
Computations in exact integers that record the result of each operation together
with the width of the machine type it is made in. If every recorded result fits
its type, a machine that truncates each of them computes the same value. Bounds on
products, quotients and weighted sums say when they do.
-/
namespace HftSystem.MachineArithmetic

open Tracing TwosComplement

/-- The exact result of an operation in a signed type. -/
structure MachineOp where
  width : ℕ
  exact : ℤ
deriving DecidableEq

def MachineOp.Ok (op : MachineOp) : Prop := Fits op.width op.exact

abbrev Exact (α : Type) := Traced MachineOp α

def op (w : ℕ) (x : ℤ) : Exact ℤ := .record ⟨w, x⟩ x

/-- No operation of the computation leaves its type. -/
def NoOverflow {α : Type} (x : Exact α) : Prop := Traced.Satisfies MachineOp.Ok x

@[simp] theorem value_op (w : ℕ) (x : ℤ) : (op w x).value = x := rfl

theorem noOverflow_pure {α : Type} (a : α) : NoOverflow (pure a) := Traced.satisfies_pure a

theorem noOverflow_op (w : ℕ) (x : ℤ) : NoOverflow (op w x) ↔ Fits w x := by
  simp [NoOverflow, Traced.Satisfies, op, Traced.record, MachineOp.Ok]

theorem noOverflow_bind {α β : Type} (x : Exact α) (f : α → Exact β) :
    NoOverflow (x >>= f) ↔ NoOverflow x ∧ NoOverflow (f x.value) := Traced.satisfies_bind x f

theorem noOverflow_ite {α : Type} (c : Prop) [Decidable c] (x y : Exact α) :
    NoOverflow (if c then x else y) ↔ (c → NoOverflow x) ∧ (¬ c → NoOverflow y) := by
  split
  · rename_i h
    simp [h]
  · rename_i h
    simp [h]

/-! ### Ranges of results -/

theorem fits_of_abs_lt {w : ℕ} {x : ℤ} (h : |x| < 2 ^ (w - 1)) : Fits w x :=
  ⟨(abs_lt.mp h).1.le, (abs_lt.mp h).2⟩

/-- A product of two 64-bit values fits 128 bits. -/
theorem fits_mul {x y : ℤ} (hx : Fits 64 x) (hy : Fits 64 y) : Fits 128 (x * y) := by
  apply fits_of_abs_lt
  have hbound : |x * y| ≤ 2 ^ 63 * 2 ^ 63 := by
    rw [abs_mul]
    exact mul_le_mul (abs_le.mpr ⟨hx.1, hx.2.le⟩) (abs_le.mpr ⟨hy.1, hy.2.le⟩) (abs_nonneg _)
      (by decide)
  exact lt_of_le_of_lt hbound (by decide)

/-- A truncating division does not leave the range of its dividend. -/
theorem abs_tdiv_le (x y : ℤ) : |x.tdiv y| ≤ |x| := by
  rw [Int.abs_eq_natAbs, Int.abs_eq_natAbs, Nat.cast_le]
  exact Int.natAbs_tdiv_le_natAbs x y

theorem fits_tdiv {w : ℕ} {x : ℤ} (h : |x| < 2 ^ (w - 1)) (y : ℤ) : Fits w (x.tdiv y) :=
  fits_of_abs_lt (lt_of_le_of_lt (abs_tdiv_le x y) h)

/-- A quotient by a positive number lies between the bounds on the dividend. -/
theorem tdiv_bounds {x y lo hi : ℤ} (hy : 0 < y) (hlow : lo * y ≤ x) (hhigh : x ≤ hi * y) :
    lo ≤ x.tdiv y ∧ x.tdiv y ≤ hi := by
  refine ⟨Int.le_tdiv_of_mul_le hy hlow, ?_⟩
  have h := Int.tdiv_le_tdiv hy hhigh
  rwa [Int.mul_tdiv_cancel _ hy.ne'] at h

/-- A weighted sum lies between the bounds on its values, times the sum of the weights. -/
theorem weighted_sum_bounds {ι : Type*} {l : List ι} {value weight : ι → ℤ} {lo hi : ℤ}
    (hweight : ∀ i ∈ l, 0 ≤ weight i) (hvalue : ∀ i ∈ l, lo ≤ value i ∧ value i ≤ hi) :
    lo * (l.map weight).sum ≤ (l.map (fun i => value i * weight i)).sum ∧
      (l.map (fun i => value i * weight i)).sum ≤ hi * (l.map weight).sum := by
  induction l with
  | nil => simp
  | cons i l ih =>
    obtain ⟨hlow, hhigh⟩ := ih (fun j hj => hweight j (List.mem_cons_of_mem i hj))
      (fun j hj => hvalue j (List.mem_cons_of_mem i hj))
    obtain ⟨hlo, hhi⟩ := hvalue i List.mem_cons_self
    have hpos := hweight i List.mem_cons_self
    simp only [List.map_cons, List.sum_cons, mul_add]
    exact ⟨add_le_add (mul_le_mul_of_nonneg_right hlo hpos) hlow,
      add_le_add (mul_le_mul_of_nonneg_right hhi hpos) hhigh⟩

end HftSystem.MachineArithmetic
