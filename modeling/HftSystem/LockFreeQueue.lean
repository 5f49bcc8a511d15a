import HftSystem.MarketUpdate
import HftSystem.Transitions
import Mathlib.Algebra.GroupWithZero.Nat
import Mathlib.Logic.Function.Basic

/-!
The single-producer single-consumer ring between an ingester and the order book
manager, and the two threads on it as a transition system. The producer fetches
a slot, fills it and advances the write index; the consumer fetches a slot,
passes its content on and advances the read index. A schedule says which thread
takes the next step.

Nothing keeps the producer from filling a slot whose content has not been passed
on yet. What a slot holds is known in every reachable state; that the updates
passed on are the updates enqueued needs room at every write.
-/
namespace HftSystem

structure LFQueue (α : Type*) (N : ℕ) where
  store : Fin N → α
  nextWriteIndex : Fin N
  nextReadIndex : Fin N
  numElements : ℕ

namespace LFQueue

variable {α : Type*} {N : ℕ} [NeZero N]

/-- The slot of the item of number j. -/
def ringSlot (N : ℕ) [NeZero N] (j : ℕ) : Fin N :=
  ⟨j % N, Nat.mod_lt j (Nat.pos_of_ne_zero (NeZero.ne N))⟩

def new (default : α) : LFQueue α N := ⟨fun _ => default, ringSlot N 0, ringSlot N 0, 0⟩

def size (q : LFQueue α N) : ℕ := q.numElements

def getNextToWriteTo (q : LFQueue α N) : Fin N := q.nextWriteIndex

/-- The assignment through the pointer that `getNextToWriteTo` returned. -/
def write (q : LFQueue α N) (slot : Fin N) (x : α) : LFQueue α N :=
  { q with store := Function.update q.store slot x }

def updateWriteIndex (q : LFQueue α N) : LFQueue α N :=
  { q with nextWriteIndex := ringSlot N (q.nextWriteIndex.val + 1)
           numElements := q.numElements + 1 }

def getNextToRead (q : LFQueue α N) : Option (Fin N) :=
  if q.size = 0 then none else some q.nextReadIndex

/-- The result is none when the assertion fails, which ends the process. -/
def updateReadIndex (q : LFQueue α N) : Option (LFQueue α N) :=
  if q.numElements = 0 then none
  else some { q with nextReadIndex := ringSlot N (q.nextReadIndex.val + 1)
                     numElements := q.numElements - 1 }

theorem ringSlot_succ (j : ℕ) : ringSlot N ((ringSlot N j).val + 1) = ringSlot N (j + 1) := by
  apply Fin.ext
  simp [ringSlot]

/-- Items less than N apart that share a slot are the same item. -/
theorem eq_of_ringSlot_eq {i j : ℕ} (h : ringSlot N i = ringSlot N j) (hij : i ≤ j)
    (hlt : j < i + N) : i = j := by
  have hmod : i % N = j % N := congrArg Fin.val h
  have hzero : (j - i) % N = 0 := Nat.sub_mod_eq_zero_of_mod_eq hmod.symm
  rw [Nat.mod_eq_of_lt (by omega)] at hzero
  omega

end LFQueue

/-! ### The two threads -/

inductive ProducerState (N : ℕ) where
  | idle
  | holding (slot : Fin N)
  | written
deriving DecidableEq

def ProducerState.isHolding {N : ℕ} : ProducerState N → Bool
  | .holding _ => true
  | _ => false

inductive ConsumerState (N : ℕ) where
  | idle
  | holding (slot : Fin N)
  | passed
deriving DecidableEq

inductive Thread where
  | producer
  | consumer
deriving DecidableEq

/-- A queue with its two threads. `pending` is what the producer still has to
enqueue. The last four fields record the run: the items published and passed on,
the number of slots released, and whether the assertion has failed. -/
structure Channel (α : Type*) (N : ℕ) where
  queue : LFQueue α N
  pending : List α
  producer : ProducerState N := .idle
  consumer : ConsumerState N := .idle
  sent : List α := []
  passed : List α := []
  released : ℕ := 0
  aborted : Bool := false

namespace Channel

open LFQueue Transitions

variable {α : Type*} {N : ℕ} [NeZero N]

def start (default : α) (xs : List α) : Channel α N where
  queue := .new default
  pending := xs

/-- One step of the enqueue loops of `SBEDecoder::decode`. -/
def produce (c : Channel α N) : Channel α N :=
  match c.pending with
  | [] => c
  | x :: rest =>
    match c.producer with
    | .idle => { c with producer := .holding c.queue.getNextToWriteTo }
    | .holding slot => { c with queue := c.queue.write slot x, producer := .written }
    | .written =>
      { c with queue := c.queue.updateWriteIndex, producer := .idle, pending := rest
               sent := c.sent ++ [x] }

/-- One step of the loop body of `OrderBookManager::run` on this queue. -/
def consume (c : Channel α N) : Channel α N :=
  match c.consumer with
  | .idle =>
    match c.queue.getNextToRead with
    | none => c
    | some slot => { c with consumer := .holding slot }
  | .holding slot => { c with consumer := .passed, passed := c.passed ++ [c.queue.store slot] }
  | .passed =>
    match c.queue.updateReadIndex with
    | none => { c with aborted := true }
    | some q => { c with queue := q, consumer := .idle, released := c.released + 1 }

def step (c : Channel α N) (t : Thread) : Channel α N :=
  if c.aborted then c
  else
    match t with
    | .producer => c.produce
    | .consumer => c.consume

theorem step_of_running {c : Channel α N} (h : c.aborted = false) (t : Thread) :
    c.step t =
      match t with
      | .producer => c.produce
      | .consumer => c.consume := by
  unfold step
  rw [h, if_neg Bool.false_ne_true]

/-- Every way a step of the producer can end. -/
inductive ProducerMove (c : Channel α N) : Channel α N → Prop
  | done (hpending : c.pending = []) : ProducerMove c c
  | fetch {x : α} {rest : List α} (hpending : c.pending = x :: rest) (hidle : c.producer = .idle) :
      ProducerMove c { c with producer := .holding c.queue.nextWriteIndex }
  | fill {x : α} {rest : List α} {slot : Fin N} (hpending : c.pending = x :: rest)
      (hslot : c.producer = .holding slot) :
      ProducerMove c { c with queue := c.queue.write slot x, producer := .written }
  | publish {x : α} {rest : List α} (hpending : c.pending = x :: rest)
      (hwritten : c.producer = .written) :
      ProducerMove c { c with
        queue := c.queue.updateWriteIndex, producer := .idle, pending := rest
        sent := c.sent ++ [x] }

theorem produce_spec (c : Channel α N) : ProducerMove c c.produce := by
  unfold produce
  split
  · exact .done ‹_›
  · rename_i hpending
    split
    · exact .fetch hpending ‹_›
    · exact .fill hpending ‹_›
    · exact .publish hpending ‹_›

/-- Every way a step of the consumer can end. -/
inductive ConsumerMove (c : Channel α N) : Channel α N → Prop
  | poll (hidle : c.consumer = .idle) (hempty : c.queue.numElements = 0) : ConsumerMove c c
  | fetch (hidle : c.consumer = .idle) (hsize : c.queue.numElements ≠ 0) :
      ConsumerMove c { c with consumer := .holding c.queue.nextReadIndex }
  | pass {slot : Fin N} (hslot : c.consumer = .holding slot) :
      ConsumerMove c { c with consumer := .passed, passed := c.passed ++ [c.queue.store slot] }
  | release (hpassed : c.consumer = .passed) (hsize : c.queue.numElements ≠ 0) :
      ConsumerMove c { c with
        queue := { c.queue with
          nextReadIndex := ringSlot N (c.queue.nextReadIndex.val + 1)
          numElements := c.queue.numElements - 1 }
        consumer := .idle, released := c.released + 1 }
  | abort (hpassed : c.consumer = .passed) (hempty : c.queue.numElements = 0) :
      ConsumerMove c { c with aborted := true }

theorem consume_spec (c : Channel α N) : ConsumerMove c c.consume := by
  unfold consume getNextToRead updateReadIndex
  split
  · rename_i hidle
    by_cases hsize : c.queue.numElements = 0
    · rw [LFQueue.size, if_pos hsize]
      exact .poll hidle hsize
    · rw [LFQueue.size, if_neg hsize]
      exact .fetch hidle hsize
  · exact .pass ‹_›
  · rename_i hpassed
    by_cases hsize : c.queue.numElements = 0
    · rw [if_pos hsize]
      exact .abort hpassed hsize
    · rw [if_neg hsize]
      exact .release hpassed hsize

/-! ### What a slot holds -/

/-- The number of slot writes so far. -/
def written (c : Channel α N) : ℕ :=
  if c.producer = .written then c.sent.length + 1 else c.sent.length

/-- Whether the oldest item has been passed on and not released yet. -/
def inHand (c : Channel α N) : ℕ := if c.consumer = .passed then 1 else 0

section Counts

omit [NeZero N]

variable {c : Channel α N}

theorem written_of_ne (h : c.producer ≠ .written) : c.written = c.sent.length := if_neg h

theorem written_eq (h : c.producer = .written) : c.written = c.sent.length + 1 := if_pos h

theorem inHand_of_ne (h : c.consumer ≠ .passed) : c.inHand = 0 := if_neg h

theorem inHand_eq (h : c.consumer = .passed) : c.inHand = 1 := if_pos h

end Counts

/-- The state of the ring after any schedule: indices and size follow the numbers
of items published and released, and each slot holds the last item written to it. -/
structure Inv (xs : List α) (c : Channel α N) : Prop where
  items : c.sent ++ c.pending = xs
  writeIndex : c.queue.nextWriteIndex = ringSlot N c.sent.length
  readIndex : c.queue.nextReadIndex = ringSlot N c.released
  size : c.queue.numElements + c.released = c.sent.length
  passedCount : c.passed.length = c.released + c.inHand
  holdsWrite : ∀ slot, c.producer = .holding slot → slot = c.queue.nextWriteIndex
  holdsRead : ∀ slot, c.consumer = .holding slot → slot = c.queue.nextReadIndex
  nonempty : c.consumer ≠ .idle → c.queue.numElements ≠ 0
  publishing : c.producer = .written → c.pending ≠ []
  content : ∀ j, j < c.written → c.written ≤ j + N →
    xs[j]? = some (c.queue.store (ringSlot N j))
  running : c.aborted = false

theorem Inv.start (default : α) (xs : List α) : Inv xs (start default xs : Channel α N) where
  items := rfl
  writeIndex := rfl
  readIndex := rfl
  size := rfl
  passedCount := rfl
  holdsWrite _ h := nomatch h
  holdsRead _ h := nomatch h
  nonempty h := absurd rfl h
  publishing h := nomatch h
  content j hj := absurd hj (Nat.not_lt_zero j)
  running := rfl

variable {xs : List α} {c : Channel α N}

/-- Filling the slot of the next item leaves the slots of the last N - 1 items alone. -/
theorem Inv.content_fill (h : Inv xs c) {x : α} {rest : List α} (hpending : c.pending = x :: rest)
    (hproducer : c.producer ≠ .written) {j : ℕ} (hj : j < c.sent.length + 1)
    (hnear : c.sent.length + 1 ≤ j + N) :
    xs[j]? = some (Function.update c.queue.store c.queue.nextWriteIndex x (ringSlot N j)) := by
  by_cases hlast : j = c.sent.length
  · subst hlast
    rw [h.writeIndex, Function.update_self, ← h.items, hpending]
    simp
  · have hslot : ringSlot N j ≠ c.queue.nextWriteIndex := by
      intro heq
      rw [h.writeIndex] at heq
      exact hlast (eq_of_ringSlot_eq heq (by omega) (by omega))
    rw [Function.update_of_ne hslot]
    refine h.content j ?_ ?_
    · rw [written_of_ne hproducer]
      omega
    · rw [written_of_ne hproducer]
      omega

theorem Inv.produce (h : Inv xs c) : Inv xs c.produce := by
  have hmove := produce_spec c
  generalize c.produce = c' at hmove
  cases hmove with
  | done => exact h
  | fetch hpending hidle =>
    refine { h with holdsWrite := ?_, publishing := ?_, content := ?_ }
    · rintro slot ⟨⟩
      rfl
    · rintro ⟨⟩
    · intro j hj hnear
      have hwritten : c.written = c.sent.length := written_of_ne (by rw [hidle]; nofun)
      exact h.content j (by rwa [hwritten]) (by rwa [hwritten])
  | fill hpending hslot =>
    have hidle : c.producer ≠ .written := by rw [hslot]; nofun
    refine { h with holdsWrite := ?_, publishing := ?_, content := ?_ }
    · rintro slot ⟨⟩
    · intro _
      rw [hpending]
      exact List.cons_ne_nil _ _
    · intro j hj hnear
      have hcontent := h.content_fill hpending hidle hj hnear
      rw [← h.holdsWrite _ hslot] at hcontent
      exact hcontent
  | @publish x rest hpending hwritten =>
    have hlength : (c.sent ++ [x]).length = c.sent.length + 1 := by simp
    have hcount := written_eq hwritten
    refine ⟨?_, ?_, h.readIndex, ?_, h.passedCount, ?_, h.holdsRead, ?_, ?_, ?_, h.running⟩
    · rw [List.append_assoc, List.singleton_append, ← hpending]
      exact h.items
    · change ringSlot N (c.queue.nextWriteIndex.val + 1) = ringSlot N (c.sent ++ [x]).length
      rw [h.writeIndex, ringSlot_succ, hlength]
    · change c.queue.numElements + 1 + c.released = (c.sent ++ [x]).length
      have hsize := h.size
      omega
    · rintro slot ⟨⟩
    · intro _
      exact Nat.succ_ne_zero _
    · rintro ⟨⟩
    · intro j hj hnear
      rw [written_of_ne (by nofun)] at hj hnear
      change j < (c.sent ++ [x]).length at hj
      change (c.sent ++ [x]).length ≤ j + N at hnear
      exact h.content j (by omega) (by omega)

theorem Inv.consume (h : Inv xs c) : Inv xs c.consume := by
  have hmove := consume_spec c
  generalize c.consume = c' at hmove
  have hcount := h.passedCount
  cases hmove with
  | poll => exact h
  | fetch hidle hsize =>
    rw [inHand_of_ne (by rw [hidle]; nofun)] at hcount
    refine { h with passedCount := ?_, holdsRead := ?_, nonempty := ?_ }
    · exact hcount
    · rintro slot ⟨⟩
      rfl
    · intro _
      exact hsize
  | @pass slot hslot =>
    rw [inHand_of_ne (by rw [hslot]; nofun)] at hcount
    refine { h with passedCount := ?_, holdsRead := ?_, nonempty := ?_ }
    · change (c.passed ++ [c.queue.store slot]).length = c.released + 1
      rw [List.length_append, List.length_singleton, hcount]
    · rintro slot ⟨⟩
    · intro _
      exact h.nonempty (by rw [hslot]; nofun)
  | release hpassed hsize =>
    rw [inHand_eq hpassed] at hcount
    refine { h with
      readIndex := ?_, size := ?_, passedCount := ?_, holdsRead := ?_, nonempty := ?_ }
    · change ringSlot N (c.queue.nextReadIndex.val + 1) = ringSlot N (c.released + 1)
      rw [h.readIndex, ringSlot_succ]
    · change c.queue.numElements - 1 + (c.released + 1) = c.sent.length
      have hsum := h.size
      omega
    · exact hcount
    · rintro slot ⟨⟩
    · intro hne
      exact absurd rfl hne
  | abort hpassed hempty => exact absurd hempty (h.nonempty (by rw [hpassed]; nofun))

theorem Inv.step (h : Inv xs c) (t : Thread) : Inv xs (c.step t) := by
  rw [step_of_running h.running]
  cases t with
  | producer => exact h.produce
  | consumer => exact h.consume

/-- Whatever the schedule, each slot holds the last item written to it, and the assertion
of `updateReadIndex` never fails. -/
theorem inv_run (default : α) (xs : List α) (schedule : List Thread) :
    Inv xs (schedule.foldl Channel.step (start default xs : Channel α N)) :=
  foldl_preserves (fun _ t h => h.step t) (Inv.start default xs) schedule

/-! ### What is passed on -/

/-- The slot write that this step makes, if it makes one, finds fewer than N
published items that have not been passed on. -/
def WritesWithRoom (c : Channel α N) (t : Thread) : Prop :=
  t = .producer → c.producer.isHolding = true → c.queue.size < N + c.inHand

instance (c : Channel α N) (t : Thread) : Decidable (c.WritesWithRoom t) :=
  inferInstanceAs (Decidable (_ → _))

/-- Only items are passed on, in order, and none that waits is overwritten. -/
structure Delivers (xs : List α) (c : Channel α N) : Prop extends Inv xs c where
  inOrder : c.passed <+: xs
  kept : c.written ≤ c.passed.length + N

theorem Delivers.start (default : α) (xs : List α) :
    Delivers xs (start default xs : Channel α N) where
  toInv := .start default xs
  inOrder := List.nil_prefix
  kept := Nat.zero_le _

theorem Delivers.produce (h : Delivers xs c) (hroom : c.WritesWithRoom .producer) :
    Delivers xs c.produce := by
  refine { h.toInv.produce with inOrder := ?_, kept := ?_ }
  all_goals
    have hmove := produce_spec c
    generalize c.produce = c' at hmove
  · cases hmove with
    | done => exact h.inOrder
    | fetch => exact h.inOrder
    | fill => exact h.inOrder
    | publish => exact h.inOrder
  · have hkept := h.kept
    cases hmove with
    | done => exact hkept
    | fetch hpending hidle =>
      rwa [written_of_ne (by rw [hidle]; nofun)] at hkept
    | fill hpending hslot =>
      change c.sent.length + 1 ≤ c.passed.length + N
      have hsize : c.queue.numElements < N + c.inHand := hroom rfl (by rw [hslot]; rfl)
      have hsum := h.size
      have hcount := h.passedCount
      omega
    | @publish x rest hpending hwritten =>
      rw [written_eq hwritten] at hkept
      change (c.sent ++ [x]).length ≤ c.passed.length + N
      rwa [List.length_append, List.length_singleton]

theorem prefix_concat {xs ys : List α} {x : α} (h : ys <+: xs) (hx : xs[ys.length]? = some x) :
    ys ++ [x] <+: xs := by
  obtain ⟨zs, rfl⟩ := h
  cases zs with
  | nil => simp at hx
  | cons z zs =>
    have hz : z = x := by simpa using hx
    exact ⟨zs, by simp [hz]⟩

theorem Delivers.consume (h : Delivers xs c) : Delivers xs c.consume := by
  refine { h.toInv.consume with inOrder := ?_, kept := ?_ }
  all_goals
    have hmove := consume_spec c
    generalize c.consume = c' at hmove
  · cases hmove with
    | poll => exact h.inOrder
    | fetch => exact h.inOrder
    | @pass slot hslot =>
      refine prefix_concat h.inOrder ?_
      have hcount := h.passedCount
      rw [inHand_of_ne (by rw [hslot]; nofun)] at hcount
      have hkept := h.kept
      have hsize := h.size
      have hnonempty := h.nonempty (by rw [hslot]; nofun)
      have hwritten : c.sent.length ≤ c.written := by
        unfold written
        split <;> omega
      rw [h.holdsRead _ hslot, h.readIndex, hcount]
      exact h.content c.released (by omega) (by omega)
    | release => exact h.inOrder
    | abort => exact h.inOrder
  · have hkept := h.kept
    cases hmove with
    | poll => exact hkept
    | fetch => exact hkept
    | @pass slot hslot =>
      change c.written ≤ (c.passed ++ [c.queue.store slot]).length + N
      rw [List.length_append]
      omega
    | release => exact hkept
    | abort => exact hkept

theorem Delivers.step (h : Delivers xs c) {t : Thread} (hroom : c.WritesWithRoom t) :
    Delivers xs (c.step t) := by
  rw [step_of_running h.running]
  cases t with
  | producer => exact h.produce hroom
  | consumer => exact h.consume

/-- Under every schedule whose slot writes all find room, the items passed on are
a prefix of the items enqueued, in every state reached. -/
theorem passed_prefix_of_room (default : α) (xs : List α) (schedule : List Thread)
    (hroom : StepsMeet step WritesWithRoom (start default xs : Channel α N) schedule)
    (ts : List Thread) (hinit : ts <+: schedule) :
    (ts.foldl step (start default xs : Channel α N)).passed <+: xs :=
  (foldl_invariant (P := Delivers xs) (fun _ _ hstep h => h.step hstep) (.start default xs) hroom
    hinit).inOrder

/-- In a ring of one slot the second update may be written as soon as the first
has been passed on. -/
theorem passed_prefix_one_slot :
    ([.producer, .producer, .producer, .consumer, .consumer, .producer, .producer, .consumer,
      .producer, .consumer, .consumer].foldl step (start (.new 0 .invalid 0 0 0 0 0)
        [.new 0 .buy 100 1 0 0 0, .new 0 .buy 101 1 0 0 0] : Channel MarketUpdate 1)).passed <+:
      [.new 0 .buy 100 1 0 0 0, .new 0 .buy 101 1 0 0 0] :=
  passed_prefix_of_room _ _ [.producer, .producer, .producer, .consumer, .consumer, .producer,
    .producer, .consumer, .producer, .consumer, .consumer] (by decide) _ (List.prefix_refl _)

/-- Written before that, it is passed on in place of the first. -/
theorem passed_not_prefix_when_overwritten :
    ¬ ([.producer, .producer, .producer, .producer, .producer, .consumer, .consumer].foldl step
        (start (.new 0 .invalid 0 0 0 0 0)
          [.new 0 .buy 100 1 0 0 0, .new 0 .buy 101 1 0 0 0] : Channel MarketUpdate 1)).passed <+:
      [.new 0 .buy 100 1 0 0 0, .new 0 .buy 101 1 0 0 0] := by
  decide

end Channel

end HftSystem
