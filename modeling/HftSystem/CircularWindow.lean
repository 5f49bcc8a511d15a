import Mathlib.Data.Fintype.Card
import Mathlib.Data.Int.ModEq
import Mathlib.Data.List.Find
import Mathlib.Tactic.Linarith

/-!
A sorted set of keyed levels kept in a ring of n slots. Two endpoint indices
mark the level of least key ("best") and of greatest key ("worst"), and a
counter is meant to be the number of active slots. A key is looked up by its
distance from the best key, modulo n.

Whether an insertion beyond the endpoints is accepted, in which slot the first
level of an empty window goes, and where the endpoints of an emptied window
rest, is left to the caller. The counter counts modulo m, as a machine word does.
Nothing here says that the window is well formed: the operations are total, also
on states where keys a multiple of n apart have met in one slot, or where the counter
has gone round.
-/
namespace HftSystem.CircularWindow

section Residue

variable {n : ℕ} [NeZero n]

/-- The slot of an integer position on a ring of n slots. -/
def residue (n : ℕ) [NeZero n] (z : ℤ) : Fin n :=
  ⟨(z % n).toNat, by
    have hn : (0 : ℤ) < n := by exact_mod_cast Nat.pos_of_ne_zero (NeZero.ne n)
    have hlow := Int.emod_nonneg z hn.ne'
    have hhigh := Int.emod_lt_of_pos z hn
    omega⟩

theorem residue_val (z : ℤ) : ((residue n z).val : ℤ) = z % n := by
  have hn : (n : ℤ) ≠ 0 := by exact_mod_cast NeZero.ne n
  simp [residue, Int.toNat_of_nonneg (Int.emod_nonneg z hn)]

theorem residue_eq_iff (z : ℤ) (i : Fin n) : residue n z = i ↔ z ≡ i [ZMOD n] := by
  have hi : (i.val : ℤ) % n = i := Int.emod_eq_of_lt (by omega) (by exact_mod_cast i.isLt)
  rw [Int.ModEq, hi, ← residue_val, Fin.ext_iff]
  omega

theorem modEq_residue (z : ℤ) : z ≡ (residue n z).val [ZMOD n] := (residue_eq_iff z _).mp rfl

end Residue

/-- Congruent integers less than n apart are equal. -/
theorem eq_of_modEq_of_lt {n : ℕ} {a b : ℤ} (h : a ≡ b [ZMOD n])
    (hab : a - b < n) (hba : b - a < n) : a = b := by
  have hzero : b - a = 0 := Int.eq_zero_of_abs_lt_dvd h.dvd (abs_lt.mpr ⟨by omega, by omega⟩)
  omega

structure Level (V : Type*) where
  key : ℤ
  value : V
  active : Bool
deriving DecidableEq

structure Window (n : ℕ) (V : Type*) where
  slot : Fin n → Level V
  best : Fin n
  worst : Fin n
  count : ℕ

variable {n : ℕ} {V : Type*}

namespace Window

def Active (w : Window n V) (i : Fin n) : Prop := (w.slot i).active = true

instance (w : Window n V) (i : Fin n) : Decidable (w.Active i) :=
  inferInstanceAs (Decidable (_ = _))

def key (w : Window n V) (i : Fin n) : ℤ := (w.slot i).key

/-- The key that belongs to slot 0, as seen from the best slot. -/
def anchor (w : Window n V) : ℤ := w.key w.best - w.best.val

def activeCount (w : Window n V) : ℕ := (Finset.univ.filter w.Active).card

/-- Fill slot i and set the endpoints and the counter. -/
def write (w : Window n V) (i : Fin n) (p : ℤ) (v : V) (best worst : Fin n)
    (count : ℕ) : Window n V :=
  ⟨Function.update w.slot i ⟨p, v, true⟩, best, worst, count⟩

/-- The key of a cleared slot stays behind. -/
def clear [Zero V] (w : Window n V) (i : Fin n) : Window n V :=
  { w with
    slot := Function.update w.slot i ⟨(w.slot i).key, 0, false⟩
    count := w.count - 1 }

def withEnds (w : Window n V) (best worst : Fin n) : Window n V :=
  { w with best := best, worst := worst }

/-- The first active slot among those at distance 1, ..., n-1 along `cand`. -/
def scan (w : Window n V) (cand : ℕ → Fin n) : Option (Fin n) :=
  ((List.range' 1 (n - 1)).find? (fun d => (w.slot (cand d)).active)).map cand

/-! ### Slots after a write and after a clear -/

section Slots

variable (w : Window n V) (i j : Fin n) (p : ℤ) (v : V) (best worst : Fin n) (count : ℕ)

theorem active_write : (w.write i p v best worst count).Active j ↔ j = i ∨ w.Active j := by
  by_cases hji : j = i
  · subst hji
    simp [Active, write]
  · simp [Active, write, hji]

theorem key_write_self : (w.write i p v best worst count).key i = p := by
  simp [key, write]

theorem key_write_of_ne (hji : j ≠ i) : (w.write i p v best worst count).key j = w.key j := by
  simp [key, write, Function.update_of_ne hji]

theorem activeCount_write_of_active (hi : w.Active i) :
    (w.write i p v best worst count).activeCount = w.activeCount := by
  unfold activeCount
  congr 1
  apply Finset.filter_congr
  intro j _
  rw [active_write]
  constructor
  · rintro (rfl | hj)
    · exact hi
    · exact hj
  · exact Or.inr

theorem activeCount_write_of_not_active (hi : ¬ w.Active i) :
    (w.write i p v best worst count).activeCount = w.activeCount + 1 := by
  unfold activeCount
  have hset : Finset.univ.filter (w.write i p v best worst count).Active =
      Insert.insert i (Finset.univ.filter w.Active) := by
    ext j
    simp [active_write]
  rw [hset, Finset.card_insert_of_notMem (by simpa using hi)]

theorem activeCount_write_le :
    (w.write i p v best worst count).activeCount ≤ w.activeCount + 1 := by
  by_cases hi : w.Active i
  · rw [activeCount_write_of_active _ _ _ _ _ _ _ hi]
    omega
  · rw [activeCount_write_of_not_active _ _ _ _ _ _ _ hi]

variable [Zero V]

theorem active_clear : (w.clear i).Active j ↔ j ≠ i ∧ w.Active j := by
  by_cases hji : j = i
  · subst hji
    simp [Active, clear]
  · simp [Active, clear, hji]

theorem key_clear : (w.clear i).key j = w.key j := by
  by_cases hji : j = i
  · subst hji
    simp [key, clear]
  · simp [key, clear, Function.update_of_ne hji]

theorem activeCount_clear (hi : w.Active i) :
    (w.clear i).activeCount + 1 = w.activeCount := by
  unfold activeCount
  have hset : Finset.univ.filter (w.clear i).Active =
      (Finset.univ.filter w.Active).erase i := by
    ext j
    simp [active_clear]
  have hmem : i ∈ Finset.univ.filter w.Active := by simpa using hi
  rw [hset, Finset.card_erase_add_one hmem]

end Slots

theorem activeCount_pos {w : Window n V} {i : Fin n} (hi : w.Active i) : 0 < w.activeCount :=
  Finset.card_pos.mpr ⟨i, by simpa using hi⟩

theorem activeCount_eq_zero_iff (w : Window n V) :
    w.activeCount = 0 ↔ ∀ i, ¬ w.Active i := by
  simp [activeCount, Finset.filter_eq_empty_iff]

theorem activeCount_le (w : Window n V) : w.activeCount ≤ n := by
  have h := Finset.card_filter_le (Finset.univ : Finset (Fin n)) w.Active
  rwa [Finset.card_univ, Fintype.card_fin] at h

/-! ### The scan for the next active slot -/

theorem scan_eq_some {w : Window n V} {cand : ℕ → Fin n} {c : Fin n}
    (h : w.scan cand = some c) :
    ∃ d, 1 ≤ d ∧ d < n ∧ c = cand d ∧ w.Active c ∧
      ∀ e, 1 ≤ e → e < d → ¬ w.Active (cand e) := by
  simp only [scan, Option.map_eq_some_iff, List.find?_range'_eq_some] at h
  obtain ⟨d, ⟨hactive, hmem, hbefore⟩, rfl⟩ := h
  rw [List.mem_range'_1] at hmem
  refine ⟨d, hmem.1, by omega, rfl, hactive, ?_⟩
  intro e he hed
  have hfree := hbefore e he hed
  simpa [Active] using hfree

theorem scan_eq_none {w : Window n V} {cand : ℕ → Fin n} (h : w.scan cand = none) :
    ∀ d, 1 ≤ d → d < n → ¬ w.Active (cand d) := by
  simp only [scan, Option.map_eq_none_iff, List.find?_eq_none, List.mem_range'_1] at h
  intro d hd hdn
  have hfree := h d ⟨hd, by omega⟩
  simpa [Active] using hfree

theorem scan_active {w : Window n V} {cand : ℕ → Fin n} {c : Fin n}
    (h : w.scan cand = some c) : w.Active c := by
  obtain ⟨d, _, _, _, hactive, _⟩ := scan_eq_some h
  exact hactive

theorem scan_congr (w : Window n V) {cand cand' : ℕ → Fin n}
    (h : ∀ d, 1 ≤ d → d < n → cand d = cand' d) : w.scan cand = w.scan cand' := by
  have hmem : ∀ d ∈ List.range' 1 (n - 1), cand d = cand' d := by
    intro d hd
    rw [List.mem_range'_1] at hd
    exact h d hd.1 (by omega)
  unfold scan
  rw [List.find?_congr (fun d hd => by rw [hmem d hd])]
  apply Option.map_congr
  intro d hd
  exact hmem d (List.mem_of_find?_eq_some hd)

/-! ### Lookup, removal and insertion -/

variable [NeZero n]

def indexOf (w : Window n V) (p : ℤ) : Fin n :=
  residue n (w.best.val + (p - w.key w.best))

def above (i : Fin n) (d : ℕ) : Fin n := residue n (i.val + d)

def below (i : Fin n) (d : ℕ) : Fin n := residue n (i.val - d)

/-- Clear slot i; an endpoint on i moves to the next active slot, and stays
where it is when there is none. -/
def erase [Zero V] (rest : Fin n) (w : Window n V) (i : Fin n) : Window n V :=
  let w' := w.clear i
  if w'.count = 0 then w'.withEnds rest rest
  else if i = w.best then w'.withEnds ((w'.scan (above i)).getD w.best) w.worst
  else if i = w.worst then w'.withEnds w.best ((w'.scan (below i)).getD w.worst)
  else w'

def remove [Zero V] (rest : Fin n) (w : Window n V) (p : ℤ) : Window n V :=
  if w.count = 0 then w
  else if (w.slot (w.indexOf p)).active then w.erase rest (w.indexOf p) else w

/-- The next value of a counter modulo m. -/
def bump (m count : ℕ) : ℕ := (count + 1) % m

/-- Insertion while both endpoints are on one slot. The counter moves unless
the other endpoint now holds the inserted key. -/
def insertSingle (m : ℕ) (w : Window n V) (p : ℤ) (v : V) : Window n V :=
  let i := w.indexOf p
  let best := if p < w.key w.best then i else w.best
  let worst := if w.key w.best < p then i else w.worst
  let slot := Function.update w.slot i ⟨p, v, true⟩
  let other := if best = i then worst else best
  ⟨slot, best, worst, if p ≠ (slot other).key then bump m w.count else w.count⟩

def insert (m : ℕ) (accept : Bool) (first : Fin n) (w : Window n V) (p : ℤ) (v : V) :
    Window n V :=
  if w.count = 0 then w.write first p v first first (bump m w.count)
  else if w.best = w.worst then
    if accept then w.insertSingle m p v else w
  else if w.key w.best ≤ p ∧ p ≤ w.key w.worst then
    w.write (w.indexOf p) p v w.best w.worst
      (if (w.slot (w.indexOf p)).active then w.count else bump m w.count)
  else if p < w.key w.best then
    if accept then w.write (w.indexOf p) p v (w.indexOf p) w.worst (bump m w.count) else w
  else
    if accept then w.write (w.indexOf p) p v w.best (w.indexOf p) (bump m w.count) else w

/-- The counter takes another value at each count, if it has more than one. -/
theorem bump_ne {m : ℕ} (hm : 1 < m) (count : ℕ) : bump m count ≠ count := by
  intro hsame
  have hlt : bump m count < m := Nat.mod_lt _ (by omega)
  rw [hsame] at hlt
  unfold bump at hsame
  rcases Nat.lt_or_ge (count + 1) m with hroom | hfull
  · rw [Nat.mod_eq_of_lt hroom] at hsame
    omega
  · obtain rfl : m = count + 1 := by omega
    rw [Nat.mod_self] at hsame
    omega

theorem bump_of_lt {m count : ℕ} (hroom : count + 1 < m) : bump m count = count + 1 :=
  Nat.mod_eq_of_lt hroom

theorem indexOf_eq_iff (w : Window n V) (p : ℤ) (i : Fin n) :
    w.indexOf p = i ↔ p - i.val ≡ w.anchor [ZMOD n] := by
  rw [indexOf, residue_eq_iff, Int.modEq_iff_dvd, Int.modEq_iff_dvd, anchor]
  have h : (i.val : ℤ) - (w.best.val + (p - w.key w.best)) =
      w.key w.best - w.best.val - (p - i.val) := by omega
  rw [h]

theorem indexOf_key_best (w : Window n V) : w.indexOf (w.key w.best) = w.best :=
  (w.indexOf_eq_iff _ _).mpr (Int.ModEq.refl _)

theorem insertSingle_eq (m : ℕ) (w : Window n V) (p : ℤ) (v : V) (hbw : w.best = w.worst) :
    w.insertSingle m p v =
      if w.indexOf p = w.best then w.write w.best p v w.best w.best w.count
      else if p < w.key w.best then
        w.write (w.indexOf p) p v (w.indexOf p) w.worst (bump m w.count)
      else w.write (w.indexOf p) p v w.best (w.indexOf p) (bump m w.count) := by
  by_cases hi : w.indexOf p = w.best
  · simp [insertSingle, write, hi, ← hbw]
  · have hp : p ≠ w.key w.best := by
      rintro rfl
      exact hi w.indexOf_key_best
    have hkey : (Function.update w.slot (w.indexOf p) ⟨p, v, true⟩ w.best).key =
        w.key w.best := by
      rw [Function.update_of_ne (Ne.symm hi)]
      rfl
    rcases lt_or_gt_of_ne hp with hlt | hgt
    · simp only [insertSingle, write, if_neg hi, if_pos hlt, if_neg hlt.asymm, if_true, ← hbw, hkey]
      rw [if_pos hp]
    · simp only [insertSingle, write, if_neg hi, if_pos hgt, if_neg hgt.asymm,
        if_neg (Ne.symm hi), hkey]
      rw [if_pos hp]

/-- Every way an insertion can end, with the guards that lead there. -/
inductive Insertion (m : ℕ) (accept : Bool) (first : Fin n) (w : Window n V) (p : ℤ) (v : V) :
    Window n V → Prop
  | first (hcount : w.count = 0) :
      Insertion m accept first w p v (w.write first p v first first (bump m 0))
  | drop (hcount : 0 < w.count) (hreject : accept = false) :
      Insertion m accept first w p v w
  | replace (hcount : 0 < w.count) (haccept : accept = true) (hbw : w.best = w.worst)
      (hi : w.indexOf p = w.best) :
      Insertion m accept first w p v (w.write w.best p v w.best w.best w.count)
  | inside (hcount : 0 < w.count) (hbw : w.best ≠ w.worst)
      (hlow : w.key w.best ≤ p) (hhigh : p ≤ w.key w.worst) :
      Insertion m accept first w p v (w.write (w.indexOf p) p v w.best w.worst
        (if (w.slot (w.indexOf p)).active then w.count else bump m w.count))
  | lower (hcount : 0 < w.count) (haccept : accept = true) (hlow : p < w.key w.best)
      (hi : w.best = w.worst → w.indexOf p ≠ w.best) :
      Insertion m accept first w p v
        (w.write (w.indexOf p) p v (w.indexOf p) w.worst (bump m w.count))
  | raise (hcount : 0 < w.count) (haccept : accept = true) (hhigh : w.key w.worst < p)
      (hi : w.best = w.worst → w.indexOf p ≠ w.best) :
      Insertion m accept first w p v
        (w.write (w.indexOf p) p v w.best (w.indexOf p) (bump m w.count))

theorem insert_spec (m : ℕ) (accept : Bool) (first : Fin n) (w : Window n V) (p : ℤ) (v : V) :
    Insertion m accept first w p v (w.insert m accept first p v) := by
  unfold insert
  split
  · rename_i hcount
    rw [hcount]
    exact .first hcount
  rename_i hcount
  replace hcount : 0 < w.count := Nat.pos_of_ne_zero hcount
  split
  · rename_i hbw
    cases accept with
    | false => exact .drop hcount rfl
    | true =>
      rw [if_pos rfl, insertSingle_eq m w p v hbw]
      split
      · rename_i hi
        exact .replace hcount rfl hbw hi
      rename_i hi
      split
      · rename_i hlt
        exact .lower hcount rfl hlt (fun _ => hi)
      · rename_i hlt
        have hne : p ≠ w.key w.best := by
          rintro rfl
          exact hi w.indexOf_key_best
        have hgt : w.key w.worst < p := by
          rw [← hbw]
          omega
        exact .raise hcount rfl hgt (fun _ => hi)
  rename_i hbw
  split
  · rename_i hin
    exact .inside hcount hbw hin.1 hin.2
  rename_i hout
  split
  · rename_i hlt
    cases accept with
    | false => exact .drop hcount rfl
    | true => exact .lower hcount rfl hlt (fun h => absurd h hbw)
  · rename_i hlt
    cases accept with
    | false => exact .drop hcount rfl
    | true => exact .raise hcount rfl (by omega) (fun h => absurd h hbw)

theorem insert_count (m : ℕ) (accept : Bool) (first : Fin n) (w : Window n V) (p : ℤ) (v : V) :
    (w.insert m accept first p v).count = w.count ∨
      (w.insert m accept first p v).count = bump m w.count := by
  have hspec := insert_spec m accept first w p v
  generalize w.insert m accept first p v = w' at hspec
  cases hspec with
  | first hcount => exact Or.inr (by rw [hcount]; rfl)
  | drop _ _ => exact Or.inl rfl
  | replace _ _ _ _ => exact Or.inl rfl
  | inside _ _ _ _ => exact ite_eq_or_eq _ _ _
  | lower _ _ _ _ => exact Or.inr rfl
  | raise _ _ _ _ => exact Or.inr rfl

/-- An accepted key goes to its own slot. -/
theorem insert_accepted (m : ℕ) (first : Fin n) (w : Window n V) (p : ℤ) (v : V)
    (hcount : 0 < w.count) :
    ∃ best worst count, (count = w.count ∨ count = bump m w.count) ∧
      w.insert m true first p v = w.write (w.indexOf p) p v best worst count := by
  have hspec := insert_spec m true first w p v
  generalize w.insert m true first p v = w' at hspec
  cases hspec with
  | first hzero => omega
  | drop _ hreject => exact absurd hreject.symm Bool.false_ne_true
  | replace _ _ _ hi => exact ⟨_, _, _, Or.inl rfl, by rw [hi]⟩
  | inside _ _ _ _ => exact ⟨_, _, _, ite_eq_or_eq _ _ _, rfl⟩
  | lower _ _ _ _ => exact ⟨_, _, _, Or.inr rfl, rfl⟩
  | raise _ _ _ _ => exact ⟨_, _, _, Or.inr rfl, rfl⟩

/-- An accepted key below the best one takes the best slot. -/
theorem insert_best (m : ℕ) (first : Fin n) (w : Window n V) {p : ℤ} (v : V) (hcount : 0 < w.count)
    (hlow : p < w.key w.best) : (w.insert m true first p v).best = w.indexOf p := by
  have hout : ¬ (w.key w.best ≤ p ∧ p ≤ w.key w.worst) := by omega
  rw [insert, if_neg (by omega), if_neg hout, if_pos hlow]
  split
  · simp only [insertSingle, if_pos hlow, if_true]
  · rfl

theorem insert_rejected (m : ℕ) (first : Fin n) (w : Window n V) {p : ℤ} (v : V)
    (hcount : 0 < w.count) (hout : w.best ≠ w.worst → ¬ (w.key w.best ≤ p ∧ p ≤ w.key w.worst)) :
    w.insert m false first p v = w := by
  have hspec := insert_spec m false first w p v
  generalize w.insert m false first p v = w' at hspec
  cases hspec with
  | first hzero => omega
  | drop _ _ => rfl
  | replace _ haccept _ _ => exact absurd haccept Bool.false_ne_true
  | inside _ hbw hlow hhigh => exact absurd ⟨hlow, hhigh⟩ (hout hbw)
  | lower _ haccept _ _ => exact absurd haccept Bool.false_ne_true
  | raise _ haccept _ _ => exact absurd haccept Bool.false_ne_true

/-- Every way the removal of the key looked up in slot i can end. -/
inductive Removal [Zero V] (rest : Fin n) (w : Window n V) (i : Fin n) : Window n V → Prop
  | absent (h : w.count = 0 ∨ ¬ w.Active i) : Removal rest w i w
  | last (hactive : w.Active i) (hcount : w.count = 1) :
      Removal rest w i ((w.clear i).withEnds rest rest)
  | best (hactive : w.Active i) (hcount : 1 < w.count) (hi : i = w.best) :
      Removal rest w i
        ((w.clear i).withEnds (((w.clear i).scan (above i)).getD w.best) w.worst)
  | worst (hactive : w.Active i) (hcount : 1 < w.count) (hb : i ≠ w.best) (hi : i = w.worst) :
      Removal rest w i
        ((w.clear i).withEnds w.best (((w.clear i).scan (below i)).getD w.worst))
  | inner (hactive : w.Active i) (hcount : 1 < w.count) (hb : i ≠ w.best) (hw : i ≠ w.worst) :
      Removal rest w i ((w.clear i).withEnds w.best w.worst)

theorem remove_spec [Zero V] (rest : Fin n) (w : Window n V) (p : ℤ) :
    Removal rest w (w.indexOf p) (w.remove rest p) := by
  unfold remove
  generalize w.indexOf p = i
  split
  · rename_i hcount
    exact .absent (Or.inl hcount)
  rename_i hcount
  split
  · rename_i hactive
    have hclear : (w.clear i).count = w.count - 1 := rfl
    unfold erase
    dsimp only
    split
    · exact .last hactive (by omega)
    have hmany : 1 < w.count := by omega
    split
    · rename_i hi
      exact .best hactive hmany hi
    rename_i hb
    split
    · rename_i hi
      exact .worst hactive hmany hb hi
    · rename_i hw
      exact .inner hactive hmany hb hw
  · rename_i hactive
    exact .absent (Or.inr hactive)

theorem remove_count_le [Zero V] (rest : Fin n) (w : Window n V) (p : ℤ) :
    (w.remove rest p).count ≤ w.count := by
  have hspec := remove_spec rest w p
  generalize w.remove rest p = w' at hspec
  have hclear : (w.clear (w.indexOf p)).count ≤ w.count := Nat.sub_le _ _
  cases hspec with
  | absent _ => exact Nat.le_refl _
  | last _ _ => exact hclear
  | best _ _ _ => exact hclear
  | worst _ _ _ _ => exact hclear
  | inner _ _ _ _ => exact hclear

end Window

end HftSystem.CircularWindow
