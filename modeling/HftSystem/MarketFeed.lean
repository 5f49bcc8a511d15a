import HftSystem.OrderBookManager
import Mathlib.Data.Fin.VecNotation

/-!
The running system: several queues, each with a producer of its own, and the one
thread of `OrderBookManager::run` that visits them in turn. An action is a step
of one producer or of that thread.

Along every run in which no slot is written while its queue is full, each
instrument is processed as if its updates were the whole feed.
-/
namespace HftSystem

/-! ### What a consumer step passes on -/

namespace Channel

variable {α : Type*} {N : ℕ} [NeZero N]

/-- The item that the next consumer step passes on, if it passes one on. -/
def passing (c : Channel α N) : Option α :=
  match c.consumer with
  | .holding slot => some (c.queue.store slot)
  | _ => none

theorem consume_passed (c : Channel α N) : c.consume.passed = c.passed ++ c.passing.toList := by
  have hmove := consume_spec c
  generalize c.consume = c' at hmove
  unfold passing
  cases hmove with
  | poll hidle => simp [hidle]
  | fetch hidle => simp [hidle]
  | pass hslot => simp [hslot]
  | release hpassed => simp [hpassed]
  | abort hpassed => simp [hpassed]

theorem produce_passed (c : Channel α N) : c.produce.passed = c.passed := by
  have hmove := produce_spec c
  generalize c.produce = c' at hmove
  cases hmove <;> rfl

/-- Once a queue is empty and nothing is pending, everything has been passed on. -/
theorem Delivers.passed_eq {xs : List α} {c : Channel α N} (h : Delivers xs c)
    (hpending : c.pending = []) (hempty : c.queue.size = 0) : c.passed = xs := by
  refine h.inOrder.eq_of_length_le ?_
  have hitems := h.items
  rw [hpending, List.append_nil] at hitems
  have hsize := h.size
  have hcount := h.passedCount
  rw [← hitems]
  change c.queue.numElements = 0 at hempty
  omega

end Channel

/-! ### Queues, producers and the manager thread -/

/-- `turn` is the position of the loop over the queues; `history` records the
updates passed on, in order. -/
structure MarketFeed {k : ℕ} (cap : Fin k → ℕ) (M : ℕ) where
  channels : (i : Fin k) → Channel MarketUpdate (cap i)
  turn : ℕ := 0
  manager : OrderBookManager M
  history : List MarketUpdate := []

inductive Action (k : ℕ) where
  | produce (i : Fin k)
  | consume
deriving DecidableEq

namespace MarketFeed

open Channel Transitions OrderBookManager

variable {k : ℕ} {cap : Fin k → ℕ} [∀ i, NeZero (cap i)] {M : ℕ} [NeZero M]

def start (default : MarketUpdate) (arrivals : Fin k → List MarketUpdate)
    (o : OrderBookManager M) : MarketFeed cap M where
  channels i := .start default (arrivals i)
  manager := o

/-- One step of the loop body of `OrderBookManager::run` on queue i. The loop goes
on to the next queue when this one was empty or its update has been released. -/
def visit (f : MarketFeed cap M) (i : Fin k) : MarketFeed cap M :=
  let c := (f.channels i).consume
  let passing := (f.channels i).passing.toList
  { channels := Function.update f.channels i c
    turn := if c.consumer = .idle then f.turn + 1 else f.turn
    manager := passing.foldl passUpdateToOrderbook f.manager
    history := f.history ++ passing }

def step (f : MarketFeed cap M) (a : Action k) : MarketFeed cap M :=
  if ∃ i, (f.channels i).aborted = true then f
  else
    match a with
    | .produce i => { f with channels := Function.update f.channels i (f.channels i).produce }
    | .consume => if h : f.turn < k then f.visit ⟨f.turn, h⟩ else { f with turn := 0 }

/-- No slot is written while its queue holds as many elements as its capacity. -/
def WritesBelowCapacity (f : MarketFeed cap M) : Action k → Prop
  | .produce i => (f.channels i).producer.isHolding = true → (f.channels i).queue.size < cap i
  | .consume => True

instance (f : MarketFeed cap M) : (a : Action k) → Decidable (f.WritesBelowCapacity a)
  | .produce _ => inferInstanceAs (Decidable (_ → _))
  | .consume => inferInstanceAs (Decidable True)

def Drained (f : MarketFeed cap M) : Prop :=
  ∀ i, (f.channels i).pending = [] ∧ (f.channels i).queue.size = 0

instance (f : MarketFeed cap M) : Decidable f.Drained := inferInstanceAs (Decidable (∀ _, _))

/-! ### What every run keeps -/

/-- All updates of the instrument arrive through queue i. -/
def ArrivesThrough (arrivals : Fin k → List MarketUpdate) (id : UInt32) (i : Fin k) : Prop :=
  ∀ j, j ≠ i → ∀ u ∈ arrivals j, u.instrumentId ≠ id

instance (arrivals : Fin k → List MarketUpdate) (id : UInt32) (i : Fin k) :
    Decidable (ArrivesThrough arrivals id i) := inferInstanceAs (Decidable (∀ _, _))

/-- Every queue delivers in order, the manager has seen exactly the history, and
the history has an instrument's updates in the order of its queue. -/
structure Inv (arrivals : Fin k → List MarketUpdate) (o : OrderBookManager M)
    (f : MarketFeed cap M) : Prop where
  delivers : ∀ i, Delivers (arrivals i) (f.channels i)
  manager : f.manager = f.history.foldl passUpdateToOrderbook o
  history : ∀ id i, ArrivesThrough arrivals id i →
    f.history.filter (fun u => u.instrumentId = id) =
      (f.channels i).passed.filter (fun u => u.instrumentId = id)

variable {arrivals : Fin k → List MarketUpdate} {o : OrderBookManager M} {f : MarketFeed cap M}

theorem Inv.start (default : MarketUpdate) (arrivals : Fin k → List MarketUpdate)
    (o : OrderBookManager M) : Inv arrivals o (start default arrivals o : MarketFeed cap M) where
  delivers i := .start default (arrivals i)
  manager := rfl
  history _ _ _ := rfl

theorem Inv.produce (h : Inv arrivals o f) {i : Fin k}
    (hroom : f.WritesBelowCapacity (.produce i)) :
    Inv arrivals o { f with channels := Function.update f.channels i (f.channels i).produce } where
  delivers j := by
    change Delivers (arrivals j) (Function.update f.channels i (f.channels i).produce j)
    by_cases hji : j = i
    · subst hji
      rw [Function.update_self]
      refine (h.delivers j).produce ?_
      intro _ hholding
      have hsize := hroom hholding
      omega
    · rw [Function.update_of_ne hji]
      exact h.delivers j
  manager := h.manager
  history id j hthrough := by
    change f.history.filter _ =
      (Function.update f.channels i (f.channels i).produce j).passed.filter _
    rw [h.history id j hthrough]
    by_cases hji : j = i
    · subst hji
      rw [Function.update_self, produce_passed]
    · rw [Function.update_of_ne hji]

/-- The item about to be passed on is one of the arrivals of its queue. -/
theorem Inv.mem_of_passing (h : Inv arrivals o f) {i : Fin k} {u : MarketUpdate}
    (hu : u ∈ (f.channels i).passing.toList) : u ∈ arrivals i := by
  have hinit := (h.delivers i).consume.inOrder
  rw [consume_passed] at hinit
  exact hinit.subset (List.mem_append_right _ hu)

theorem Inv.visit (h : Inv arrivals o f) (i : Fin k) : Inv arrivals o (f.visit i) where
  delivers j := by
    change Delivers (arrivals j) (Function.update f.channels i (f.channels i).consume j)
    by_cases hji : j = i
    · subst hji
      rw [Function.update_self]
      exact (h.delivers j).consume
    · rw [Function.update_of_ne hji]
      exact h.delivers j
  manager := by
    change (f.channels i).passing.toList.foldl passUpdateToOrderbook f.manager =
      (f.history ++ (f.channels i).passing.toList).foldl passUpdateToOrderbook o
    rw [List.foldl_append, ← h.manager]
  history id j hthrough := by
    change (f.history ++ (f.channels i).passing.toList).filter _ =
      (Function.update f.channels i (f.channels i).consume j).passed.filter _
    rw [List.filter_append, h.history id j hthrough]
    by_cases hji : j = i
    · subst hji
      rw [Function.update_self, consume_passed, List.filter_append]
    · have hnone : (f.channels i).passing.toList.filter (fun u => u.instrumentId = id) = [] := by
        rw [List.filter_eq_nil_iff]
        intro u hu
        have hne := hthrough i (Ne.symm hji) u (h.mem_of_passing hu)
        simpa using hne
      rw [Function.update_of_ne hji, hnone, List.append_nil]

theorem Inv.step (h : Inv arrivals o f) {a : Action k} (hroom : f.WritesBelowCapacity a) :
    Inv arrivals o (f.step a) := by
  unfold MarketFeed.step
  split
  · exact h
  cases a with
  | produce i => exact h.produce hroom
  | consume =>
    dsimp only
    split
    · exact h.visit _
    · exact ⟨h.delivers, h.manager, h.history⟩

/-! ### Independence of the instruments -/

/-- In every run that writes no slot of a full queue: an update of an unregistered
id changes nothing, and once the queues are drained the book and the signals of
each registered instrument are those of its own updates, in the order of its
queue, passed on alone. -/
theorem instruments_independent (default : MarketUpdate) (arrivals : Fin k → List MarketUpdate)
    (ids : List UInt32) (hnodup : ids.Nodup) (hfew : ids.length < 65536)
    (strategies : StrategyManager M)
    (hbound : BoundTo strategies (registered ids : OrderBookManager M).idToIndex)
    (schedule : List (Action k))
    (hroom : StepsMeet step WritesBelowCapacity (start default arrivals
      ((registered ids).setStrategyManager strategies) : MarketFeed cap M) schedule) :
    let o := (registered ids).setStrategyManager strategies
    let f := schedule.foldl step (start default arrivals o : MarketFeed cap M)
    (∀ u, u.instrumentId ∉ ids → f.manager.passUpdateToOrderbook u = f.manager) ∧
      (f.Drained → ∀ id ∈ ids, ∀ i, ArrivesThrough arrivals id i →
        let us := (arrivals i).filter (fun u => u.instrumentId = id)
        f.manager.bookFor id = some (OrderBook.addUpdates {} us) ∧
          f.manager.signalsFor id = (us.foldl passUpdateToOrderbook o).signalsFor id) := by
  intro o f
  have hinv : Inv arrivals o f := foldl_invariant (fun _ _ hstep h => h.step hstep)
    (.start default arrivals o) hroom (List.prefix_refl _)
  have hwired : o.Wired := wired_registered hnodup hfew hbound
  have hindex : f.manager.idToIndex = o.idToIndex := by rw [hinv.manager, idToIndex_pass_all]
  refine ⟨?_, ?_⟩
  · intro u hu
    refine pass_of_unregistered ?_
    rw [hindex]
    exact idToIndex_of_notMem hnodup hu
  · intro hdrained id hid i hthrough us
    have hpassed : (f.channels i).passed = arrivals i :=
      (hinv.delivers i).passed_eq (hdrained i).1 (hdrained i).2
    have hview := SameView.pass_all (.refl id o) hwired f.history
    rw [hinv.history id i hthrough, hpassed, ← hinv.manager] at hview
    refine ⟨?_, hview.signalsFor_eq⟩
    rw [hview.book, bookFor_pass_all]
    · change Option.map _ ((registered ids : OrderBookManager M).bookFor id) = _
      rw [bookFor_registered hnodup hfew hid]
      rfl
    · intro u hu
      simpa using (List.mem_filter.mp hu).2

/-- A strategy for each of the books 0 and 1, not yet registered. -/
def newStrategies : StrategyManager 4 where
  objects p := if p = 0 then ⟨0, .microMomentum {}⟩ else ⟨1, .midPriceReversion⟩
  signals := .new 0

/-- A strategy for each of the instruments 7 and 9. -/
def twoStrategies : StrategyManager 4 := (newStrategies.registerStrategy 7 0).registerStrategy 9 1

theorem twoStrategies_bound :
    BoundTo twoStrategies (registered [7, 9] : OrderBookManager 4).idToIndex := by
  have hempty : ∀ id p, p ∉ newStrategies.perInstrument id := fun _ _ => List.not_mem_nil
  have hnone : BoundTo newStrategies (registered [7, 9] : OrderBookManager 4).idToIndex :=
    ⟨fun id _ p h => absurd h (hempty id p), fun id _ p _ h => absurd h (hempty id p), rfl⟩
  refine (hnone.registerStrategy (fun id => hempty id 0) ?_).registerStrategy ?_ ?_
  · intro i hi
    cases hi
    rfl
  · intro id h
    by_cases hid : id = 7
    · subst hid
      exact absurd h (by decide)
    · rw [StrategyManager.registerStrategy] at h
      simp only [Function.update_of_ne hid] at h
      exact hempty id 1 h
  · intro i hi
    cases hi
    rfl

/-- Instrument 7 comes through one queue, instrument 9 and an unregistered one
through another. -/
def twoArrivals : Fin 2 → List MarketUpdate :=
  ![[.new 7 .buy 100 1 0 0 0], [.new 5 .sell 101 2 0 0 0, .new 9 .sell 300 4 0 0 0]]

def twoSchedule : List (Action 2) :=
  [.produce 1, .produce 0, .produce 1, .produce 1, .produce 0, .consume, .produce 0, .consume,
    .consume, .consume, .consume, .produce 1, .consume, .produce 1, .produce 1, .consume,
    .consume, .consume, .consume, .consume, .consume, .consume]

theorem twoSchedule_room : StepsMeet step WritesBelowCapacity
    (start (.new 0 .invalid 0 0 0 0 0) twoArrivals
      ((registered [7, 9]).setStrategyManager twoStrategies) : MarketFeed (fun _ => 1) 4)
    twoSchedule := by
  decide +kernel

theorem instruments_independent_two_queues :
    let o := (registered [7, 9] : OrderBookManager 4).setStrategyManager twoStrategies
    let f := twoSchedule.foldl step (start (.new 0 .invalid 0 0 0 0 0) twoArrivals o :
      MarketFeed (fun _ => 1) 4)
    f.manager.bookFor 9 = some (OrderBook.addUpdates {} [.new 9 .sell 300 4 0 0 0]) :=
  ((instruments_independent (.new 0 .invalid 0 0 0 0 0) twoArrivals [7, 9] (by decide) (by decide)
    twoStrategies twoStrategies_bound twoSchedule twoSchedule_room).2 (by decide +kernel) 9
    (by decide) 1 (by decide)).1

end MarketFeed

end HftSystem
