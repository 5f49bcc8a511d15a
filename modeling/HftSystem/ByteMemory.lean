import Mathlib.Algebra.Order.Ring.Nat
import Mathlib.Data.List.GetD

/-!
A byte memory without bounds, with block writes and reads, and the four-byte
exclusive-or mask, on byte strings and in place. Masking twice is the identity.
Regions say where a memory may have changed.
-/
namespace HftSystem.ByteMemory

abbrev Memory := ℕ → UInt8

def writeAt (m : Memory) (offset : ℕ) (bytes : List UInt8) : Memory := fun a =>
  if offset ≤ a ∧ a < offset + bytes.length then bytes.getD (a - offset) 0 else m a

def slice (m : Memory) (offset len : ℕ) : List UInt8 :=
  (List.range len).map (fun i => m (offset + i))

/-- The byte string with byte i combined with byte i mod 4 of the key. -/
def applyMask (key : List UInt8) (bytes : List UInt8) : List UInt8 :=
  bytes.mapIdx (fun i b => b ^^^ key.getD (i % 4) 0)

/-- The same on a block of memory. -/
def maskAt (m : Memory) (offset len : ℕ) (key : List UInt8) : Memory := fun a =>
  if offset ≤ a ∧ a < offset + len then m a ^^^ key.getD ((a - offset) % 4) 0 else m a

@[simp] theorem length_slice (m : Memory) (offset len : ℕ) : (slice m offset len).length = len := by
  simp [slice]

@[simp] theorem length_applyMask (key bytes : List UInt8) :
    (applyMask key bytes).length = bytes.length := by
  simp [applyMask]

theorem applyMask_applyMask (key bytes : List UInt8) :
    applyMask key (applyMask key bytes) = bytes := by
  apply List.ext_getElem
  · simp
  · intro i hi _
    simp only [applyMask, List.getElem_mapIdx, UInt8.xor_assoc, UInt8.xor_self, UInt8.xor_zero]

theorem writeAt_apply (m : Memory) (offset : ℕ) (bytes : List UInt8) {i : ℕ}
    (hi : i < bytes.length) : writeAt m offset bytes (offset + i) = bytes[i] := by
  rw [writeAt, if_pos ⟨by omega, by omega⟩, Nat.add_sub_cancel_left, List.getD_eq_getElem _ _ hi]

/-- What has been written is read back. -/
theorem slice_writeAt (m : Memory) (offset : ℕ) (bytes : List UInt8) :
    slice (writeAt m offset bytes) offset bytes.length = bytes := by
  apply List.ext_getElem
  · simp
  · intro i _ hi
    simp only [slice, List.getElem_map, List.getElem_range]
    exact writeAt_apply m offset bytes hi

theorem slice_maskAt (m : Memory) (offset len : ℕ) (key : List UInt8) :
    slice (maskAt m offset len key) offset len = applyMask key (slice m offset len) := by
  apply List.ext_getElem
  · simp
  · intro i hi _
    rw [length_slice] at hi
    simp only [slice, applyMask, List.getElem_map, List.getElem_range, List.getElem_mapIdx]
    rw [maskAt, if_pos ⟨by omega, by omega⟩, Nat.add_sub_cancel_left]

/-! ### Changes -/

structure Region where
  start : ℕ
  len : ℕ
deriving DecidableEq

namespace Region

def Inside (r : Region) (size : ℕ) : Prop := r.start + r.len ≤ size

def Covers (r : Region) (a : ℕ) : Prop := r.start ≤ a ∧ a < r.start + r.len

instance (r : Region) (size : ℕ) : Decidable (r.Inside size) :=
  inferInstanceAs (Decidable (r.start + r.len ≤ size))

end Region

/-- The second memory differs from the first inside the regions only. -/
def ChangedWithin (rs : List Region) (m m' : Memory) : Prop :=
  ∀ a, (∀ r ∈ rs, ¬ r.Covers a) → m' a = m a

namespace ChangedWithin

variable {rs rs' : List Region} {m m' m'' : Memory}

theorem refl (rs : List Region) (m : Memory) : ChangedWithin rs m m := fun _ _ => rfl

theorem trans (h : ChangedWithin rs m m') (h' : ChangedWithin rs m' m'') :
    ChangedWithin rs m m'' :=
  fun a ha => (h' a ha).trans (h a ha)

theorem mono (h : ChangedWithin rs m m') (hsub : rs ⊆ rs') : ChangedWithin rs' m m' :=
  fun a ha => h a (fun r hr => ha r (hsub hr))

theorem append (h : ChangedWithin rs m m') (h' : ChangedWithin rs' m' m'') :
    ChangedWithin (rs ++ rs') m m'' :=
  (h.mono (List.subset_append_left _ _)).trans (h'.mono (List.subset_append_right _ _))

end ChangedWithin

theorem writeAt_changed (m : Memory) (offset : ℕ) {bytes : List UInt8} {len : ℕ}
    (hlen : bytes.length ≤ len) : ChangedWithin [⟨offset, len⟩] m (writeAt m offset bytes) := by
  intro a ha
  rw [writeAt, if_neg]
  rintro ⟨hstart, hstop⟩
  exact ha _ (List.mem_singleton.mpr rfl)
    ⟨hstart, lt_of_lt_of_le hstop (Nat.add_le_add_left hlen _)⟩

theorem maskAt_changed (m : Memory) (offset len : ℕ) (key : List UInt8) :
    ChangedWithin [⟨offset, len⟩] m (maskAt m offset len key) := by
  intro a ha
  rw [maskAt, if_neg]
  exact ha _ (List.mem_singleton.mpr rfl)

/-! ### Moves -/

/-- A block is copied from one offset to another. -/
def copy (m : Memory) (target source len : ℕ) : Memory := writeAt m target (slice m source len)

theorem slice_getElem (m : Memory) (offset len : ℕ) {i : ℕ} (hi : i < (slice m offset len).length) :
    (slice m offset len)[i] = m (offset + i) := by
  simp [slice]

theorem slice_congr {m m' : Memory} {offset offset' len : ℕ}
    (h : ∀ i < len, m (offset + i) = m' (offset' + i)) :
    slice m offset len = slice m' offset' len := by
  apply List.map_congr_left
  intro i hi
  exact h i (List.mem_range.mp hi)

theorem slice_zero (m : Memory) (offset : ℕ) : slice m offset 0 = [] := rfl

theorem slice_succ (m : Memory) (offset len : ℕ) :
    slice m offset (len + 1) = m offset :: slice m (offset + 1) len := by
  rw [slice, List.range_succ_eq_map, List.map_cons, List.map_map, Nat.add_zero]
  congr 1
  apply List.map_congr_left
  intro i _
  simp only [Function.comp_apply, Nat.succ_eq_add_one]
  congr 1
  omega

theorem slice_add (m : Memory) (offset len len' : ℕ) :
    slice m offset (len + len') = slice m offset len ++ slice m (offset + len) len' := by
  induction len generalizing offset with
  | zero => rw [Nat.zero_add, slice_zero, List.nil_append, Nat.add_zero]
  | succ len ih =>
    rw [Nat.succ_add, slice_succ, slice_succ, ih, List.cons_append]
    congr 3
    omega

/-- The parts of a block lie one behind the other. -/
theorem slice_eq_append {m : Memory} {offset len : ℕ} {bytes bytes' : List UInt8}
    (h : slice m offset len = bytes ++ bytes') :
    slice m offset bytes.length = bytes ∧ slice m (offset + bytes.length) bytes'.length = bytes' := by
  have hlength := congrArg List.length h
  rw [length_slice, List.length_append] at hlength
  rw [hlength, slice_add] at h
  exact List.append_inj h (length_slice _ _ _)

theorem writeAt_of_outside {m : Memory} {offset a : ℕ} {bytes : List UInt8}
    (h : a < offset ∨ offset + bytes.length ≤ a) : writeAt m offset bytes a = m a := by
  rw [writeAt, if_neg]
  omega

theorem copy_apply (m : Memory) (target source : ℕ) {len i : ℕ} (hi : i < len) :
    copy m target source len (target + i) = m (source + i) := by
  rw [copy, writeAt_apply m target _ (show i < (slice m source len).length by simpa using hi)]
  exact slice_getElem m source len _

theorem copy_of_outside {m : Memory} {target source len a : ℕ}
    (h : a < target ∨ target + len ≤ a) : copy m target source len a = m a := by
  apply writeAt_of_outside
  rwa [length_slice]

end HftSystem.ByteMemory
