import Mathlib.Algebra.Order.Ring.Int
import Mathlib.Tactic.NormNum

/-!
Two's-complement machine integers as truncations of mathematical integers.
A conversion to a signed type of w bits keeps the residue modulo 2^w that lies
in [-2^(w-1), 2^(w-1)). Sums may be truncated once at the end, and a value
that already fits is unchanged.
-/
namespace HftSystem.TwosComplement

/-- The value of an integer after conversion to a signed type of w bits. -/
def truncate (w : ℕ) (x : ℤ) : ℤ := x.bmod (2 ^ w)

def Fits (w : ℕ) (x : ℤ) : Prop := -2 ^ (w - 1) ≤ x ∧ x < 2 ^ (w - 1)

instance (w : ℕ) (x : ℤ) : Decidable (Fits w x) := inferInstanceAs (Decidable (_ ∧ _))

theorem truncate_of_fits {w : ℕ} {x : ℤ} (hw : 0 < w) (h : Fits w x) : truncate w x = x := by
  obtain ⟨hlow, hhigh⟩ := h
  have hpow : (2 : ℕ) ^ w = 2 * 2 ^ (w - 1) := by
    rw [← pow_succ', Nat.sub_add_cancel hw]
  have hcast : ((2 ^ (w - 1) : ℕ) : ℤ) = 2 ^ (w - 1) := by norm_cast
  apply Int.bmod_eq_of_le
  · omega
  · omega

theorem truncate_add_truncate (w : ℕ) (x y : ℤ) :
    truncate w (truncate w x + y) = truncate w (x + y) := Int.bmod_add_bmod

end HftSystem.TwosComplement
