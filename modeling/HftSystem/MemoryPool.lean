import Mathlib.Data.List.Basic
import Mathlib.Data.List.Nodup
import Mathlib.Data.Finset.Card
import Mathlib.Data.Fintype.Card

/-!
The pool of pre-allocated objects. Each block has a flag that says whether it is
free, and `allocate` moves an index on to the next free block as soon as it has
taken one. The search goes once round the blocks; if it meets no free one, an
assertion ends the process, although the call itself had found a block.

A call gives a result or stops: an assertion fails, an access leaves the store, or
the search has not ended after as many iterations as there are blocks.
-/
namespace HftSystem

structure ObjectBlock (T : Type) where
  object : T
  isFree : Bool := true
deriving DecidableEq

namespace MemPool

inductive FailedAssert
  | expectedFree (index : ℕ)
  | notOfPool
  | expectedInUse (index : ℕ)
  | outOfSpace
deriving DecidableEq

def FailedAssert.message : FailedAssert → String
  | .expectedFree index => "Expected free ObjectBlock at index:" ++ toString index
  | .notOfPool => "Element being deallocated does not belong to this Memory pool."
  | .expectedInUse index => "Expected in-use ObjectBlock at index:" ++ toString index
  | .outOfSpace => "Memory Pool out of space."

/-- Why a call does not return. -/
inductive Stop
  | assertion (failed : FailedAssert)
  | outOfBounds (index : ℕ)
  | searching
deriving DecidableEq

end MemPool

structure MemPool (T : Type) where
  store : List (ObjectBlock T)
  nextFreeIndex : ℕ := 0

namespace MemPool

variable {T : Type}

def new (numElems : ℕ) (default : T) : MemPool T := ⟨List.replicate numElems ⟨default, true⟩, 0⟩

/-- The loop of `updateNextFreeIndex`, for at most the given number of iterations. -/
def nextFree (store : List (ObjectBlock T)) (initialFreeIndex : ℕ) :
    (iterations : ℕ) → (index : ℕ) → Except Stop ℕ
  | 0, _ => .error .searching
  | iterations + 1, index =>
    match store[index]? with
    | none => .error (.outOfBounds index)
    | some block =>
      if block.isFree then .ok index
      else
        let index := if index + 1 = store.length then 0 else index + 1
        if initialFreeIndex = index then .error (.assertion .outOfSpace)
        else nextFree store initialFreeIndex iterations index

def updateNextFreeIndex (p : MemPool T) : Except Stop (MemPool T) := do
  let index ← nextFree p.store p.nextFreeIndex p.store.length p.nextFreeIndex
  return { p with nextFreeIndex := index }

/-- The result is the index of the block that holds the object. -/
def allocate (p : MemPool T) (object : T) : Except Stop (ℕ × MemPool T) :=
  match p.store[p.nextFreeIndex]? with
  | none => .error (.outOfBounds p.nextFreeIndex)
  | some block =>
    if block.isFree then do
      let store := p.store.set p.nextFreeIndex ⟨object, false⟩
      let pool ← updateNextFreeIndex { p with store }
      return (p.nextFreeIndex, pool)
    else .error (.assertion (.expectedFree p.nextFreeIndex))

/-- The argument is the distance of the object from the first block, in blocks. -/
def deallocate (p : MemPool T) (elemIndex : ℤ) : Except Stop (MemPool T) :=
  if elemIndex ≥ 0 ∧ elemIndex.toNat < p.store.length then
    match p.store[elemIndex.toNat]? with
    | none => .error (.outOfBounds elemIndex.toNat)
    | some block =>
      if block.isFree then .error (.assertion (.expectedInUse elemIndex.toNat))
      else .ok { p with store := p.store.set elemIndex.toNat { block with isFree := true } }
  else .error (.assertion .notOfPool)

/-! ### The search for a free block -/

/-- The block at an index is free. -/
def FreeAt (store : List (ObjectBlock T)) (index : ℕ) : Prop :=
  ∃ block, store[index]? = some block ∧ block.isFree = true

/-- The block at an index is in use. -/
def InUse (store : List (ObjectBlock T)) (index : ℕ) : Prop :=
  ∃ block, store[index]? = some block ∧ block.isFree = false

section Search

variable {store : List (ObjectBlock T)} {initial : ℕ}

theorem FreeAt.lt {index : ℕ} (h : FreeAt store index) : index < store.length := by
  obtain ⟨block, hblock, -⟩ := h
  exact (List.getElem?_eq_some_iff.mp hblock).1

theorem InUse.lt {index : ℕ} (h : InUse store index) : index < store.length := by
  obtain ⟨block, hblock, -⟩ := h
  exact (List.getElem?_eq_some_iff.mp hblock).1

theorem InUse.not_free {index : ℕ} (h : InUse store index) : ¬ FreeAt store index := by
  obtain ⟨block, hblock, huse⟩ := h
  rintro ⟨block', hblock', hfree⟩
  rw [Option.some_inj.mp (hblock.symm.trans hblock'), hfree] at huse
  exact Bool.false_ne_true huse.symm

theorem free_or_inUse {index : ℕ} (h : index < store.length) :
    FreeAt store index ∨ InUse store index := by
  have hblock := List.getElem?_eq_getElem h
  cases hfree : store[index].isFree with
  | true => exact .inl ⟨_, hblock, hfree⟩
  | false => exact .inr ⟨_, hblock, hfree⟩

theorem inUse_set {index : ℕ} (hindex : index < store.length) (block : ObjectBlock T) (j : ℕ) :
    InUse (store.set index block) j ↔
      j = index ∧ block.isFree = false ∨ j ≠ index ∧ InUse store j := by
  unfold InUse
  by_cases hj : j = index
  · subst hj
    simp [hindex]
  · simp [Ne.symm hj, hj]

theorem freeAt_set_of_ne {index j : ℕ} (hj : j ≠ index) (block : ObjectBlock T) :
    FreeAt (store.set index block) j ↔ FreeAt store j := by
  simp [FreeAt, Ne.symm hj]

theorem nextFree_of_free {index : ℕ} (h : FreeAt store index) (iterations : ℕ) :
    nextFree store initial (iterations + 1) index = .ok index := by
  obtain ⟨block, hblock, hfree⟩ := h
  simp [nextFree, hblock, hfree]

theorem nextFree_of_inUse {index : ℕ} (h : InUse store index) (iterations : ℕ) :
    nextFree store initial (iterations + 1) index =
      let next := if index + 1 = store.length then 0 else index + 1
      if initial = next then .error (.assertion .outOfSpace)
      else nextFree store initial iterations next := by
  obtain ⟨block, hblock, huse⟩ := h
  simp [nextFree, hblock, huse]

/-- The wrapping increment moves one place on round the store. -/
theorem wrap_succ {n : ℕ} (hn : 0 < n) (i : ℕ) :
    (if i % n + 1 = n then 0 else i % n + 1) = (i + 1) % n := by
  have hlt := Nat.mod_lt i hn
  rw [← Nat.mod_add_mod]
  split
  · rename_i heq
    rw [heq, Nat.mod_self]
  · exact (Nat.mod_eq_of_lt (by omega)).symm

/-- Up to one turn, the search is back at its start only after the whole turn. -/
theorem add_mod_eq_self_iff {n i m : ℕ} (hi : i < n) (hpos : 0 < m) (hm : m ≤ n) :
    (i + m) % n = i ↔ m = n := by
  rcases Nat.lt_or_ge (i + m) n with hlt | hge
  · rw [Nat.mod_eq_of_lt hlt]
    omega
  · rw [Nat.mod_eq_sub_mod hge, Nat.mod_eq_of_lt (by omega)]
    omega

theorem exists_add_mod_eq {n i j : ℕ} (hi : i < n) (hj : j < n) : ∃ m < n, (i + m) % n = j := by
  rcases Nat.lt_or_ge j i with hlt | hge
  · refine ⟨j + n - i, by omega, ?_⟩
    rw [Nat.add_sub_cancel' (by omega), Nat.add_mod_right, Nat.mod_eq_of_lt hj]
  · exact ⟨j - i, by omega, by rw [Nat.add_sub_cancel' hge, Nat.mod_eq_of_lt hj]⟩

/-- The search ends within one turn: at a free block, or with the assertion if every block
is in use. The blocks it has passed are in use. -/
theorem nextFree_spec (hinitial : initial < store.length) {k iterations : ℕ}
    (hk : k + iterations = store.length) (hleft : 0 < iterations)
    (hpassed : ∀ m < k, InUse store ((initial + m) % store.length)) :
    (∃ index, nextFree store initial iterations ((initial + k) % store.length) = .ok index ∧
        FreeAt store index) ∨
      nextFree store initial iterations ((initial + k) % store.length) =
          .error (.assertion .outOfSpace) ∧
        ∀ index < store.length, InUse store index := by
  induction iterations generalizing k with
  | zero => exact absurd hleft (lt_irrefl 0)
  | succ iterations ih =>
    have hsize : 0 < store.length := by omega
    rcases free_or_inUse (Nat.mod_lt (initial + k) hsize) with hfree | huse
    · exact .inl ⟨_, nextFree_of_free hfree iterations, hfree⟩
    · have hpassed' : ∀ m < k + 1, InUse store ((initial + m) % store.length) := by
        intro m hm
        rcases Nat.lt_succ_iff_lt_or_eq.mp hm with hlt | rfl
        · exact hpassed m hlt
        · exact huse
      have hback := add_mod_eq_self_iff hinitial (Nat.succ_pos k) (by omega)
      rw [nextFree_of_inUse huse, wrap_succ hsize, Nat.add_assoc]
      by_cases hend : initial = (initial + (k + 1)) % store.length
      · rw [if_pos hend]
        refine .inr ⟨rfl, fun index hindex => ?_⟩
        obtain ⟨m, hm, rfl⟩ := exists_add_mod_eq hinitial hindex
        have hturn := hback.mp hend.symm
        exact hpassed' m (by omega)
      · rw [if_neg hend]
        have hne : k + 1 ≠ store.length := fun h => hend (hback.mpr h).symm
        exact ih (by omega) (by omega) hpassed'

theorem nextFree_turn (h : initial < store.length) :
    (∃ index, nextFree store initial store.length initial = .ok index ∧ FreeAt store index) ∨
      nextFree store initial store.length initial = .error (.assertion .outOfSpace) ∧
        ∀ index < store.length, InUse store index := by
  have hspec := nextFree_spec h (Nat.zero_add _) (Nat.zero_lt_of_lt h)
    (fun m hm => absurd hm (Nat.not_lt_zero m))
  rwa [Nat.add_zero, Nat.mod_eq_of_lt h] at hspec

/-- Once the search has ended, more iterations do not change its result. -/
theorem nextFree_of_le {n m index : ℕ} (hnm : n ≤ m)
    (hended : nextFree store initial n index ≠ .error .searching) :
    nextFree store initial m index = nextFree store initial n index := by
  induction n generalizing m index with
  | zero => exact absurd rfl hended
  | succ n ih =>
    obtain ⟨m, rfl⟩ : ∃ k, m = k + 1 := ⟨m - 1, by omega⟩
    by_cases hlt : index < store.length
    · rcases free_or_inUse hlt with hfree | huse
      · rw [nextFree_of_free hfree, nextFree_of_free hfree]
      · rw [nextFree_of_inUse huse] at hended ⊢
        rw [nextFree_of_inUse huse]
        dsimp only at hended ⊢
        generalize (if index + 1 = store.length then 0 else index + 1) = next at hended ⊢
        by_cases hback : initial = next
        · rw [if_pos hback, if_pos hback]
        · rw [if_neg hback] at hended
          rw [if_neg hback, if_neg hback]
          exact ih (by omega) hended
    · simp only [nextFree, List.getElem?_eq_none (not_lt.mp hlt)]

end Search

/-- The search of a pool ends within n iterations, at a free block or with the assertion. -/
def SearchEnds (n : ℕ) (p : MemPool T) : Prop :=
  (∃ index, FreeAt p.store index ∧
      ∀ m ≥ n, nextFree p.store p.nextFreeIndex m p.nextFreeIndex = .ok index) ∨
    ∀ m ≥ n, nextFree p.store p.nextFreeIndex m p.nextFreeIndex = .error (.assertion .outOfSpace)

theorem searchEnds_length {p : MemPool T} (h : p.nextFreeIndex < p.store.length) :
    SearchEnds p.store.length p := by
  rcases nextFree_turn h with ⟨index, hok, hfree⟩ | ⟨herror, -⟩
  · refine .inl ⟨index, hfree, fun m hm => ?_⟩
    rw [nextFree_of_le hm (by rw [hok]; exact nofun), hok]
  · refine .inr (fun m hm => ?_)
    rw [nextFree_of_le hm (by rw [herror]; exact nofun), herror]

theorem updateNextFreeIndex_spec {p : MemPool T} (h : p.nextFreeIndex < p.store.length) :
    (∃ index, p.updateNextFreeIndex = .ok { p with nextFreeIndex := index } ∧
        FreeAt p.store index) ∨
      p.updateNextFreeIndex = .error (.assertion .outOfSpace) ∧
        ∀ index < p.store.length, InUse p.store index := by
  unfold updateNextFreeIndex
  rcases nextFree_turn h with ⟨index, hok, hfree⟩ | ⟨herror, hfull⟩
  · rw [hok]
    exact .inl ⟨index, rfl, hfree⟩
  · rw [herror]
    exact .inr ⟨rfl, hfull⟩

/-! ### Sequences of calls -/

inductive Call (T : Type)
  | allocate (object : T)
  | deallocate (index : ℕ)

/-- A pool in use: the blocks of the objects that are live are kept beside it. -/
structure Usage (T : Type) where
  pool : MemPool T
  live : List ℕ := []

namespace Usage

def start (numElems : ℕ) (default : T) : Usage T := ⟨.new numElems default, []⟩

def step (s : Usage T) : Call T → Except Stop (Usage T)
  | .allocate object => do
    let (index, pool) ← s.pool.allocate object
    return ⟨pool, index :: s.live⟩
  | .deallocate index => do
    let pool ← s.pool.deallocate index
    return ⟨pool, s.live.erase index⟩

theorem step_allocate {s : Usage T} {object : T} {index : ℕ} {pool : MemPool T}
    (hok : s.pool.allocate object = .ok (index, pool)) :
    s.step (.allocate object) = .ok ⟨pool, index :: s.live⟩ := by
  rw [step, hok]
  rfl

theorem step_deallocate {s : Usage T} {index : ℕ} {pool : MemPool T}
    (hok : s.pool.deallocate index = .ok pool) :
    s.step (.deallocate index) = .ok ⟨pool, s.live.erase index⟩ := by
  rw [step, hok]
  rfl

/-- A run of calls, up to the first one that stops. -/
def run (s : Usage T) (calls : List (Call T)) : Except Stop (Usage T) := calls.foldlM step s

theorem run_cons (s : Usage T) (call : Call T) (calls : List (Call T)) :
    run s (call :: calls) = s.step call >>= fun s' => run s' calls :=
  List.foldlM_cons

/-- The block of each deallocated object holds a live one, up to the first call that stops. -/
def FreesLive : Usage T → List (Call T) → Prop
  | _, [] => True
  | s, .allocate object :: calls =>
    ∀ s', s.step (.allocate object) = .ok s' → FreesLive s' calls
  | s, .deallocate index :: calls =>
    index ∈ s.live ∧ ∀ s', s.step (.deallocate index) = .ok s' → FreesLive s' calls

/-- Every call of the sequence returns, and an `allocate` returns a block that is not live
if it is called while fewer than N objects are. -/
def Serves (N : ℕ) : Usage T → List (Call T) → Prop
  | _, [] => True
  | s, .allocate object :: calls =>
    ∃ index pool, s.pool.allocate object = .ok (index, pool) ∧
      (s.live.length < N → index ∉ s.live) ∧ Serves N ⟨pool, index :: s.live⟩ calls
  | s, .deallocate index :: calls =>
    ∃ pool, s.pool.deallocate index = .ok pool ∧ Serves N ⟨pool, s.live.erase index⟩ calls

/-- Every `allocate` of the sequence leaves one block free. -/
def LeavesRoom (N : ℕ) : (objects : ℕ) → List (Call T) → Prop
  | _, [] => True
  | objects, .allocate _ :: calls => objects + 1 < N ∧ LeavesRoom N (objects + 1) calls
  | objects, .deallocate _ :: calls => LeavesRoom N (objects - 1) calls

/-- What holds of a pool of N blocks between two calls. -/
structure Inv (N : ℕ) (s : Usage T) : Prop where
  size : s.pool.store.length = N
  next : FreeAt s.pool.store s.pool.nextFreeIndex
  live_iff : ∀ index, index ∈ s.live ↔ InUse s.pool.store index
  nodup : s.live.Nodup

variable {N : ℕ} {s : Usage T}

theorem inv_start (hN : 1 ≤ N) (default : T) : Inv N (start N default) where
  size := List.length_replicate
  next := ⟨⟨default, true⟩, List.getElem?_replicate_of_lt hN, rfl⟩
  live_iff index := by
    refine iff_of_false List.not_mem_nil ?_
    rintro ⟨block, hblock, huse⟩
    have hmem := List.mem_replicate.mp (List.mem_of_getElem? hblock)
    rw [hmem.2] at huse
    exact Bool.false_ne_true huse.symm
  nodup := List.nodup_nil

theorem Inv.next_not_live (h : Inv N s) : s.pool.nextFreeIndex ∉ s.live :=
  fun hmem => ((h.live_iff _).mp hmem).not_free h.next

/-- Distinct numbers below N. -/
theorem length_le_of_lt {l : List ℕ} (hnodup : l.Nodup) (hlt : ∀ i ∈ l, i < N) : l.length ≤ N := by
  rw [← List.toFinset_card_of_nodup hnodup, ← Finset.card_range N]
  exact Finset.card_le_card (fun i hi => Finset.mem_range.mpr (hlt i (List.mem_toFinset.mp hi)))

theorem le_length_of_lt {l : List ℕ} (hmem : ∀ i < N, i ∈ l) : N ≤ l.length := by
  rw [← Finset.card_range N]
  refine le_trans (Finset.card_le_card (fun i hi => ?_)) l.toFinset_card_le
  exact List.mem_toFinset.mpr (hmem i (Finset.mem_range.mp hi))

/-- The pool after `allocate` has taken a block, before the search for the next one. -/
def taken (s : Usage T) (object : T) : MemPool T :=
  { s.pool with store := s.pool.store.set s.pool.nextFreeIndex ⟨object, false⟩ }

theorem Inv.allocate_eq (h : Inv N s) (object : T) :
    s.pool.allocate object =
      (s.taken object).updateNextFreeIndex >>= fun pool => .ok (s.pool.nextFreeIndex, pool) := by
  obtain ⟨block, hblock, hfree⟩ := h.next
  simp only [MemPool.allocate, hblock, hfree, if_true]
  rfl

theorem Inv.taken_size (h : Inv N s) (object : T) : (s.taken object).store.length = N :=
  (List.length_set ..).trans h.size

theorem Inv.taken_live_iff (h : Inv N s) (object : T) (index : ℕ) :
    index ∈ s.pool.nextFreeIndex :: s.live ↔ InUse (s.taken object).store index := by
  rw [taken, inUse_set h.next.lt, List.mem_cons, h.live_iff]
  by_cases hindex : index = s.pool.nextFreeIndex
  · simp [hindex]
  · simp [hindex]

/-- `allocate` returns a free block exactly while it leaves another one free. -/
theorem Inv.allocate (h : Inv N s) (object : T) :
    s.live.length + 1 < N ∧ (∃ index pool, s.pool.allocate object = .ok (index, pool) ∧
        index ∉ s.live ∧ Inv N ⟨pool, index :: s.live⟩) ∨
      s.live.length + 1 = N ∧ s.pool.allocate object = .error (.assertion .outOfSpace) := by
  have hsize := h.taken_size object
  have hlive := h.taken_live_iff object
  have hnodup := List.nodup_cons.mpr ⟨h.next_not_live, h.nodup⟩
  have hlt : ∀ i ∈ s.pool.nextFreeIndex :: s.live, i < N :=
    fun i hi => hsize ▸ ((hlive i).mp hi).lt
  have hnext : (s.taken object).nextFreeIndex < (s.taken object).store.length :=
    hsize.symm ▸ hlt _ List.mem_cons_self
  rw [h.allocate_eq]
  rcases updateNextFreeIndex_spec hnext with ⟨index, hok, hfree⟩ | ⟨herror, hfull⟩
  · have hnew : index ∉ s.pool.nextFreeIndex :: s.live :=
      fun hmem => ((hlive index).mp hmem).not_free hfree
    have hroom := length_le_of_lt (List.nodup_cons.mpr ⟨hnew, hnodup⟩)
      (List.forall_mem_cons.mpr ⟨hsize ▸ hfree.lt, hlt⟩)
    rw [hok]
    exact .inl ⟨hroom, _, _, rfl, h.next_not_live, ⟨hsize, hfree, hlive, hnodup⟩⟩
  · have hroom := length_le_of_lt hnodup hlt
    have hall := le_length_of_lt (fun i hi => (hlive i).mpr (hfull i (hsize.symm ▸ hi)))
    rw [herror]
    exact .inr ⟨le_antisymm hroom hall, rfl⟩

theorem Inv.deallocate (h : Inv N s) {index : ℕ} (hlive : index ∈ s.live) :
    ∃ pool, s.pool.deallocate index = .ok pool ∧ Inv N ⟨pool, s.live.erase index⟩ := by
  have huse := (h.live_iff index).mp hlive
  have hlt := huse.lt
  have hne : s.pool.nextFreeIndex ≠ index := fun heq => h.next_not_live (heq ▸ hlive)
  obtain ⟨block, hblock, hfalse⟩ := huse
  refine ⟨{ s.pool with store := s.pool.store.set index { block with isFree := true } }, ?_, ?_⟩
  · rw [MemPool.deallocate, if_pos ⟨Int.natCast_nonneg index, by simpa using hlt⟩]
    simp only [Int.toNat_natCast, hblock, hfalse, Bool.false_eq_true, if_false]
  · refine ⟨(List.length_set ..).trans h.size, (freeAt_set_of_ne hne _).mpr h.next, fun j => ?_,
      h.nodup.erase index⟩
    rw [inUse_set hlt, h.nodup.mem_erase_iff, h.live_iff]
    simp

theorem Inv.searchEnds (h : Inv N s) (object : T) : SearchEnds N (s.taken object) := by
  have hsize := h.taken_size object
  have hnext : s.pool.nextFreeIndex < N := h.size ▸ h.next.lt
  rw [← hsize] at hnext ⊢
  exact searchEnds_length hnext

/-- A run stops only for want of space. -/
theorem Inv.run (h : Inv N s) {calls earlier : List (Call T)} (hcalls : FreesLive s calls)
    (hinit : earlier <+: calls) :
    (∃ s', run s earlier = .ok s' ∧ Inv N s') ∨
      run s earlier = .error (.assertion .outOfSpace) := by
  induction calls generalizing s earlier with
  | nil =>
    rw [List.prefix_nil.mp hinit]
    exact .inl ⟨s, rfl, h⟩
  | cons call calls ih =>
    cases earlier with
    | nil => exact .inl ⟨s, rfl, h⟩
    | cons first earlier =>
      obtain ⟨rfl, hrest⟩ := List.cons_prefix_cons.mp hinit
      cases first with
      | allocate object =>
        rcases h.allocate object with ⟨-, index, pool, hok, -, hinv⟩ | ⟨-, herror⟩
        · rw [run_cons, step_allocate hok]
          exact ih hinv (hcalls _ (step_allocate hok)) hrest
        · have hstep : s.step (.allocate object) = .error (.assertion .outOfSpace) := by
            rw [step, herror]
            rfl
          rw [run_cons, hstep]
          exact .inr rfl
      | deallocate index =>
        obtain ⟨hlive, hfrees⟩ := hcalls
        obtain ⟨pool, hok, hinv⟩ := h.deallocate hlive
        rw [run_cons, step_deallocate hok]
        exact ih hinv (hfrees _ (step_deallocate hok)) hrest

theorem Inv.serves_iff (h : Inv N s) {calls : List (Call T)} (hcalls : FreesLive s calls) :
    Serves N s calls ↔ LeavesRoom N s.live.length calls := by
  induction calls generalizing s with
  | nil => exact Iff.rfl
  | cons call calls ih =>
    cases call with
    | allocate object =>
      rw [Serves, LeavesRoom]
      rcases h.allocate object with ⟨hroom, index, pool, hok, hnew, hinv⟩ | ⟨hfull, herror⟩
      · have hrest : Serves N ⟨pool, index :: s.live⟩ calls ↔ _ :=
          ih hinv (hcalls _ (step_allocate hok))
        rw [and_iff_right hroom, ← List.length_cons, ← hrest, hok]
        constructor
        · rintro ⟨index', pool', heq, -, hserves⟩
          cases heq
          exact hserves
        · exact fun hserves => ⟨index, pool, rfl, fun _ => hnew, hserves⟩
      · -- the last free block is taken and the search for the next one fails
        refine iff_of_false ?_ (fun hroom => absurd hroom.1 (by omega))
        rintro ⟨index, pool, hok, -⟩
        rw [herror] at hok
        cases hok
    | deallocate index =>
      obtain ⟨hlive, hrest⟩ := hcalls
      obtain ⟨pool, hok, hinv⟩ := h.deallocate hlive
      have hiff := ih hinv (hrest _ (step_deallocate hok))
      rw [Serves, LeavesRoom, ← List.length_erase_of_mem hlive, ← hiff, hok]
      constructor
      · rintro ⟨pool', heq, hserves⟩
        cases heq
        exact hserves
      · exact fun hserves => ⟨pool, rfl, hserves⟩

end Usage

open Usage

/-- A pool of N blocks serves a sequence of calls exactly if every `allocate` of it is called
while fewer than N - 1 objects are live. -/
theorem serves_iff_leavesRoom {N : ℕ} (hN : 1 ≤ N) (default : T) {calls : List (Call T)}
    (hcalls : FreesLive (start N default) calls) :
    Serves N (start N default) calls ↔ LeavesRoom N 0 calls :=
  (inv_start hN default).serves_iff hcalls

theorem serves_two_of_three :
    Serves 3 (start 3 ()) [.allocate (), .allocate (), .deallocate 0, .allocate ()] := by
  have hcalls : FreesLive (start 3 ())
      [.allocate (), .allocate (), .deallocate 0, .allocate ()] := by
    rintro s₁ ⟨⟩ s₂ ⟨⟩
    exact ⟨by decide, fun _ _ _ _ => trivial⟩
  exact (serves_iff_leavesRoom (by decide) () hcalls).mpr (by simp [LeavesRoom])

/-- The only block of a pool is handed out by a call that ends the process. -/
theorem single_block_out_of_space :
    FreesLive (start 1 ()) [.allocate ()] ∧
      (new 1 ()).allocate () = .error (.assertion .outOfSpace) ∧
      ¬ Serves 1 (start 1 ()) [.allocate ()] := by
  refine ⟨fun _ _ => trivial, rfl, ?_⟩
  rintro ⟨index, pool, hok, -⟩
  cases hok

/-- Before every call of a run the index names a free block, the blocks in use are those of
the live objects, and the search of `allocate` would end within N iterations. -/
theorem run_never_hands_out_live {N : ℕ} (hN : 1 ≤ N) (default : T) {calls earlier : List (Call T)}
    (hcalls : FreesLive (start N default) calls) (hinit : earlier <+: calls) :
    (∃ s, run (start N default) earlier = .ok s ∧
      s.pool.nextFreeIndex < N ∧ FreeAt s.pool.store s.pool.nextFreeIndex ∧
      (∀ index, InUse s.pool.store index ↔ index ∈ s.live) ∧ s.live.Nodup ∧
      ∀ object, SearchEnds N (s.taken object) ∧
        s.pool.allocate object =
          (s.taken object).updateNextFreeIndex >>= fun pool =>
            .ok (s.pool.nextFreeIndex, pool)) ∨
      run (start N default) earlier = .error (.assertion .outOfSpace) := by
  rcases (inv_start hN default).run hcalls hinit with ⟨s, hrun, hinv⟩ | herror
  · refine .inl ⟨s, hrun, hinv.size ▸ hinv.next.lt, hinv.next, ?_, hinv.nodup, ?_⟩
    · exact fun index => (hinv.live_iff index).symm
    · exact fun object => ⟨hinv.searchEnds object, hinv.allocate_eq object⟩
  · exact .inr herror

theorem run_never_hands_out_live_two_blocks :
    ∃ s, run (start 2 ()) [.allocate (), .deallocate 0, .allocate ()] = .ok s ∧
      s.pool.nextFreeIndex < 2 ∧ FreeAt s.pool.store s.pool.nextFreeIndex ∧ s.live = [1] := by
  have hcalls : FreesLive (start 2 ()) [.allocate (), .deallocate 0, .allocate ()] := by
    rintro s₁ ⟨⟩
    exact ⟨by decide, fun _ _ _ _ => trivial⟩
  rcases run_never_hands_out_live (by decide) () hcalls (List.prefix_refl _) with
    ⟨s, hrun, hnext, hfree, -⟩ | herror
  · refine ⟨s, hrun, hnext, hfree, ?_⟩
    cases hrun
    rfl
  · cases herror

end MemPool

end HftSystem
