import Mathlib.Algebra.Order.Ring.Nat
import Mathlib.Data.List.Basic
import Mathlib.Tactic.Ring

/-!
Unsigned words as lists of bytes, least or most significant byte first, and the
reading of a word at an offset of a byte string.
-/
namespace HftSystem.ByteWords

/-! ### Least significant byte first -/

def ofLE : List UInt8 → ℕ
  | [] => 0
  | b :: bs => b.toNat + 256 * ofLE bs

/-- The w low bytes of n. -/
def toLE : (w : ℕ) → ℕ → List UInt8
  | 0, _ => []
  | w + 1, n => UInt8.ofNat n :: toLE w (n / 256)

@[simp] theorem length_toLE (w n : ℕ) : (toLE w n).length = w := by
  induction w generalizing n with
  | zero => rfl
  | succ w ih => simp [toLE, ih]

theorem ofLE_toLE (w n : ℕ) : ofLE (toLE w n) = n % 256 ^ w := by
  induction w generalizing n with
  | zero => simp [toLE, ofLE, Nat.mod_one]
  | succ w ih =>
    have hbyte : (UInt8.ofNat n).toNat = n % 256 := UInt8.toNat_ofNat'
    rw [toLE, ofLE, ih, hbyte, pow_succ' 256 w, Nat.mod_mul]

theorem ofLE_lt (bs : List UInt8) : ofLE bs < 256 ^ bs.length := by
  induction bs with
  | nil => exact Nat.one_pos
  | cons b bs ih =>
    have hbyte := b.toNat_lt
    rw [ofLE, List.length_cons, pow_succ']
    omega

/-! ### Most significant byte first -/

def ofBE (bs : List UInt8) : ℕ := bs.foldl (fun acc b => acc * 256 + b.toNat) 0

def toBE (w n : ℕ) : List UInt8 := (toLE w n).reverse

@[simp] theorem length_toBE (w n : ℕ) : (toBE w n).length = w := by simp [toBE]

theorem ofBE_reverse (bs : List UInt8) : ofBE bs.reverse = ofLE bs := by
  unfold ofBE
  rw [List.foldl_reverse]
  induction bs with
  | nil => rfl
  | cons b bs ih =>
    rw [List.foldr_cons, ih, ofLE]
    ring

theorem ofBE_toBE (w n : ℕ) : ofBE (toBE w n) = n % 256 ^ w := by
  rw [toBE, ofBE_reverse, ofLE_toLE]

theorem toLE_eq_map (w n : ℕ) :
    toLE w n = (List.range w).map (fun i => UInt8.ofNat (n / 256 ^ i)) := by
  induction w generalizing n with
  | zero => rfl
  | succ w ih =>
    rw [toLE, ih, List.range_succ_eq_map, List.map_cons, List.map_map, pow_zero, Nat.div_one]
    refine congrArg _ (List.map_congr_left (fun i _ => ?_))
    rw [Function.comp_apply, Nat.div_div_eq_div_mul, ← pow_succ']

/-- The byte that a shift to the right brings to the lowest place. -/
theorem ofNat_shiftRight_and (n i : ℕ) :
    UInt8.ofNat (n >>> (8 * i) &&& 0xFF) = UInt8.ofNat (n / 256 ^ i) := by
  have hbyte : n >>> (8 * i) &&& 0xFF = n / 256 ^ i % 256 := by
    rw [Nat.shiftRight_eq_div_pow, pow_mul]
    exact Nat.and_two_pow_sub_one_eq_mod _ 8
  apply UInt8.toNat_inj.mp
  rw [hbyte, UInt8.toNat_ofNat', UInt8.toNat_ofNat', Nat.mod_mod]

theorem toBE_eq_map (w n : ℕ) :
    toBE w n = (List.range w).reverse.map (fun i => UInt8.ofNat (n >>> (8 * i) &&& 0xFF)) := by
  simp only [toBE, toLE_eq_map, ← List.map_reverse, ofNat_shiftRight_and]

/-! ### Words inside a byte string -/

/-- The word of w bytes at an offset; zero where the string is too short. -/
def readLe (w : ℕ) (buf : List UInt8) (offset : ℕ) : ℕ :=
  if offset + w > buf.length then 0 else ofLE ((buf.drop offset).take w)

theorem readLe_lt (w : ℕ) (buf : List UInt8) (offset : ℕ) : readLe w buf offset < 256 ^ w := by
  unfold readLe
  split
  · exact Nat.pow_pos (by decide)
  · refine lt_of_lt_of_le (ofLE_lt _) (Nat.pow_le_pow_right (by decide) ?_)
    exact List.length_take_le w _

/-- Reading beyond a known first part is reading in the rest. -/
theorem readLe_append_length (w : ℕ) (pre bytes : List UInt8) (offset : ℕ) :
    readLe w (pre ++ bytes) (pre.length + offset) = readLe w bytes offset := by
  unfold readLe
  rw [List.length_append, List.drop_length_add_append]
  by_cases h : offset + w > bytes.length
  · rw [if_pos h, if_pos (by omega)]
  · rw [if_neg h, if_neg (by omega)]

theorem readLe_drop (w : ℕ) (buf : List UInt8) (a offset : ℕ) :
    readLe w (buf.drop a) offset = readLe w buf (a + offset) := by
  unfold readLe
  rw [List.length_drop, List.drop_drop]
  by_cases h : a + offset + w > buf.length
  · by_cases ha : offset + w > buf.length - a
    · rw [if_pos h, if_pos ha]
    · have hw : w = 0 := by omega
      rw [if_pos h, if_neg ha, hw, List.take_zero, ofLE]
  · rw [if_neg h, if_neg (by omega)]

theorem readLe_toLE (w n : ℕ) (tail : List UInt8) :
    readLe w (toLE w n ++ tail) 0 = n % 256 ^ w := by
  unfold readLe
  rw [if_neg (by simp), List.drop_zero, List.take_left' (length_toLE w n), ofLE_toLE]

end HftSystem.ByteWords
