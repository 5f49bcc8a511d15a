import HftSystem.Strategies

/-!
The order book manager: one book per registered instrument, found through a map
from instrument ids to 16-bit positions, and the strategies that hear of every
update after its book has been changed. The processing of one instrument does
not depend on what the other instruments do.
-/
namespace HftSystem

structure OrderBookManager (M : ℕ) where
  orderBooks : List OrderBook := []
  idToIndex : UInt32 → Option UInt16 := fun _ => none
  strategyManager : Option (StrategyManager M) := none

namespace OrderBookManager

variable {M : ℕ}

def registerInstrument (o : OrderBookManager M) (instrumentId : UInt32) : OrderBookManager M :=
  let index := UInt16.ofNat o.orderBooks.length
  { o with idToIndex := Function.update o.idToIndex instrumentId (some index)
           orderBooks := o.orderBooks ++ [{}] }

/-- The result is none where the lookup throws. -/
def bookFor (o : OrderBookManager M) (instrumentId : UInt32) : Option OrderBook :=
  (o.idToIndex instrumentId).bind (fun index => o.orderBooks[index.toNat]?)

def setStrategyManager (o : OrderBookManager M) (m : StrategyManager M) : OrderBookManager M :=
  { o with strategyManager := some m }

def passUpdateToOrderbook [NeZero M] (o : OrderBookManager M) (u : MarketUpdate) :
    OrderBookManager M :=
  match o.idToIndex u.instrumentId with
  | none => o
  | some index =>
    let orderBooks := o.orderBooks.modify index.toNat (fun b => b.addUpdate u)
    let books := fun i => orderBooks.getD i {}
    { o with orderBooks
             strategyManager := o.strategyManager.map (fun m => m.onMarketData books u) }

/-! ### Registration -/

/-- A manager on which the instruments have been registered in this order. -/
def registered (ids : List UInt32) : OrderBookManager M := ids.foldl registerInstrument {}

theorem registered_concat (ids : List UInt32) (id : UInt32) :
    (registered (ids ++ [id]) : OrderBookManager M) = (registered ids).registerInstrument id := by
  simp [registered]

theorem orderBooks_registered (ids : List UInt32) :
    (registered ids : OrderBookManager M).orderBooks = List.replicate ids.length {} := by
  induction ids using List.reverseRecOn with
  | nil => rfl
  | append_singleton ids id ih =>
    rw [registered_concat, List.length_append, List.length_singleton, List.replicate_succ', ← ih]
    rfl

theorem idToIndex_registered {ids : List UInt32} (hnodup : ids.Nodup) (id : UInt32) :
    (registered ids : OrderBookManager M).idToIndex id =
      if id ∈ ids then some (UInt16.ofNat (ids.idxOf id)) else none := by
  induction ids using List.reverseRecOn with
  | nil => rfl
  | append_singleton ids a ih =>
    obtain ⟨hids, -, hdisjoint⟩ := List.nodup_append.mp hnodup
    have ha : a ∉ ids := fun hmem => hdisjoint a hmem a (List.mem_singleton.mpr rfl) rfl
    rw [registered_concat]
    simp only [registerInstrument, orderBooks_registered, List.length_replicate]
    by_cases hid : id = a
    · subst hid
      rw [Function.update_self, if_pos (by simp), List.idxOf_append_of_notMem ha]
      simp
    · rw [Function.update_of_ne hid, ih hids]
      by_cases hmem : id ∈ ids
      · rw [if_pos hmem, if_pos (List.mem_append_left _ hmem), List.idxOf_append_of_mem hmem]
      · rw [if_neg hmem, if_neg (by simp [hmem, hid])]

theorem idToIndex_of_notMem {ids : List UInt32} (hnodup : ids.Nodup) {id : UInt32}
    (hid : id ∉ ids) : (registered ids : OrderBookManager M).idToIndex id = none := by
  rw [idToIndex_registered hnodup, if_neg hid]

/-- Fewer than 65536 positions fit the 16-bit map. -/
theorem index_toNat {ids : List UInt32} (hfew : ids.length < 65536) {id : UInt32} (hid : id ∈ ids) :
    (UInt16.ofNat (ids.idxOf id)).toNat = ids.idxOf id := by
  have hlt := List.idxOf_lt_length_of_mem hid
  rw [UInt16.toNat_ofNat']
  exact Nat.mod_eq_of_lt (by omega)

theorem bookFor_registered {ids : List UInt32} (hnodup : ids.Nodup) (hfew : ids.length < 65536)
    {id : UInt32} (hid : id ∈ ids) :
    (registered ids : OrderBookManager M).bookFor id = some {} := by
  rw [bookFor, idToIndex_registered hnodup, if_pos hid, Option.bind_some, index_toNat hfew hid,
    orderBooks_registered, List.getElem?_replicate, if_pos (List.idxOf_lt_length_of_mem hid)]

/-! ### Wiring -/

/-- Every strategy object is registered for one instrument only, is bound to that
instrument's book, and none hears of all instruments. -/
structure BoundTo (m : StrategyManager M) (idToIndex : UInt32 → Option UInt16) : Prop where
  single : ∀ id id' p, p ∈ m.perInstrument id → p ∈ m.perInstrument id' → id = id'
  bound : ∀ id i p, idToIndex id = some i → p ∈ m.perInstrument id → (m.objects p).book = i.toNat
  noGlobal : m.globalStrategies = []

/-- Instruments have books of their own, and the strategies are bound to them. -/
structure Wired (o : OrderBookManager M) : Prop where
  distinct : ∀ id id' i, o.idToIndex id = some i → o.idToIndex id' = some i → id = id'
  strategies : ∀ m, o.strategyManager = some m → BoundTo m o.idToIndex

theorem BoundTo.of_sameWiring {m m' : StrategyManager M} {idToIndex : UInt32 → Option UInt16}
    (h : BoundTo m idToIndex) (hsame : m'.SameWiring m) : BoundTo m' idToIndex where
  single id id' p := by
    rw [hsame.perInstrument]
    exact h.single id id' p
  bound id i p := by
    rw [hsame.perInstrument, hsame.books]
    exact h.bound id i p
  noGlobal := hsame.globalStrategies.trans h.noGlobal

/-- A new strategy is registered for the instrument to whose book it is bound. -/
theorem BoundTo.registerStrategy {m : StrategyManager M} {idToIndex : UInt32 → Option UInt16}
    (h : BoundTo m idToIndex) {id : UInt32} {p : ℕ} (hnew : ∀ id', p ∉ m.perInstrument id')
    (hbook : ∀ i, idToIndex id = some i → (m.objects p).book = i.toNat) :
    BoundTo (m.registerStrategy id p) idToIndex := by
  have hmem : ∀ id' q, q ∈ (m.registerStrategy id p).perInstrument id' →
      q ∈ m.perInstrument id' ∨ id' = id ∧ q = p := by
    intro id' q hq
    by_cases hid : id' = id
    · subst hid
      rw [StrategyManager.registerStrategy] at hq
      simpa using hq
    · rw [StrategyManager.registerStrategy] at hq
      simp only [Function.update_of_ne hid] at hq
      exact Or.inl hq
  refine ⟨?_, ?_, h.noGlobal⟩
  · intro id₁ id₂ q hq₁ hq₂
    rcases hmem id₁ q hq₁ with hold₁ | ⟨rfl, rfl⟩
    · rcases hmem id₂ q hq₂ with hold₂ | ⟨-, rfl⟩
      · exact h.single id₁ id₂ q hold₁ hold₂
      · exact absurd hold₁ (hnew id₁)
    · rcases hmem id₂ q hq₂ with hold₂ | ⟨rfl, -⟩
      · exact absurd hold₂ (hnew id₂)
      · rfl
  · intro id' i q hid hq
    rcases hmem id' q hq with hold | ⟨rfl, rfl⟩
    · exact h.bound id' i q hid hold
    · exact hbook i hid

theorem wired_registered {ids : List UInt32} (hnodup : ids.Nodup) (hfew : ids.length < 65536)
    {m : StrategyManager M} (hbound : BoundTo m (registered ids : OrderBookManager M).idToIndex) :
    ((registered ids).setStrategyManager m).Wired where
  distinct id id' i hid hid' := by
    change (registered ids : OrderBookManager M).idToIndex id = some i at hid
    change (registered ids : OrderBookManager M).idToIndex id' = some i at hid'
    rw [idToIndex_registered hnodup] at hid hid'
    split at hid
    · rename_i hmem
      split at hid'
      · rename_i hmem'
        have heq : ids.idxOf id = ids.idxOf id' := by
          rw [← index_toNat hfew hmem, ← index_toNat hfew hmem', Option.some.inj hid,
            Option.some.inj hid']
        exact (List.idxOf_inj hmem).mp heq
      · exact nomatch hid'
    · exact nomatch hid
  strategies m' hm' := by
    cases hm'
    exact hbound

/-! ### Non-interference -/

/-- Two managers agree on the book, the strategies and the signals of one instrument. -/
structure SameView (id : UInt32) (o o' : OrderBookManager M) : Prop where
  idToIndex : o.idToIndex = o'.idToIndex
  book : o.bookFor id = o'.bookFor id
  strategies : Option.Rel (fun m m' => m.SameWiring m' ∧ m.SameOn (m.perInstrument id) m')
    o.strategyManager o'.strategyManager

theorem SameView.refl (id : UInt32) (o : OrderBookManager M) : SameView id o o := by
  refine ⟨rfl, rfl, ?_⟩
  cases o.strategyManager with
  | none => exact .none
  | some m => exact .some ⟨⟨rfl, rfl, fun _ => rfl⟩, .refl _ m⟩

/-- The signals of the strategies of one instrument, with the addresses they came from. -/
def signalsFor (o : OrderBookManager M) (id : UInt32) : List (ℕ × ℤ) :=
  match o.strategyManager with
  | none => []
  | some m => m.signalsOf (m.perInstrument id)

theorem SameView.signalsFor_eq {id : UInt32} {o o' : OrderBookManager M} (h : SameView id o o') :
    o.signalsFor id = o'.signalsFor id := by
  have hrel := h.strategies
  unfold signalsFor
  generalize o.strategyManager = s at hrel
  generalize o'.strategyManager = s' at hrel
  cases hrel with
  | none => rfl
  | some hmm =>
    dsimp only
    rw [hmm.2.signals, hmm.1.perInstrument]

variable [NeZero M] {id : UInt32} {o o' : OrderBookManager M} {u : MarketUpdate}

theorem onMarketData_eq {m : StrategyManager M} (hglobal : m.globalStrategies = [])
    (books : ℕ → OrderBook) (u : MarketUpdate) :
    m.onMarketData books u =
      (m.perInstrument u.instrumentId).foldl (StrategyManager.signalFrom books u) m := by
  have hwiring := StrategyManager.foldl_signalFrom_wiring books u m
    (m.perInstrument u.instrumentId)
  unfold StrategyManager.onMarketData
  dsimp only
  rw [hwiring.globalStrategies, hglobal, List.foldl_nil]

theorem pass_of_unregistered (hindex : o.idToIndex u.instrumentId = none) :
    o.passUpdateToOrderbook u = o := by
  unfold passUpdateToOrderbook
  rw [hindex]

/-- The books that the strategies see while update u is passed on. -/
def booksAfter (o : OrderBookManager M) (u : MarketUpdate) (index : UInt16) : List OrderBook :=
  o.orderBooks.modify index.toNat (fun b => b.addUpdate u)

theorem pass_of_registered {index : UInt16} (hindex : o.idToIndex u.instrumentId = some index) :
    o.passUpdateToOrderbook u =
      ⟨o.booksAfter u index, o.idToIndex,
        o.strategyManager.map (fun m => m.onMarketData ((o.booksAfter u index).getD · {}) u)⟩ := by
  unfold passUpdateToOrderbook
  rw [hindex]
  rfl

theorem passUpdateToOrderbook_idToIndex (o : OrderBookManager M) (u : MarketUpdate) :
    (o.passUpdateToOrderbook u).idToIndex = o.idToIndex := by
  unfold passUpdateToOrderbook
  split <;> rfl

theorem idToIndex_pass_all (o : OrderBookManager M) (us : List MarketUpdate) :
    (us.foldl passUpdateToOrderbook o).idToIndex = o.idToIndex := by
  induction us generalizing o with
  | nil => rfl
  | cons u us ih => rw [List.foldl_cons, ih, passUpdateToOrderbook_idToIndex]

theorem Wired.passUpdateToOrderbook (h : o.Wired) (u : MarketUpdate) :
    (o.passUpdateToOrderbook u).Wired where
  distinct := by
    rw [passUpdateToOrderbook_idToIndex]
    exact h.distinct
  strategies m hm := by
    rw [passUpdateToOrderbook_idToIndex]
    cases hindex : o.idToIndex u.instrumentId with
    | none =>
      rw [pass_of_unregistered hindex] at hm
      exact h.strategies m hm
    | some index =>
      rw [pass_of_registered hindex] at hm
      obtain ⟨m₀, hm₀, rfl⟩ := Option.map_eq_some_iff.mp hm
      have hbound := h.strategies m₀ hm₀
      rw [onMarketData_eq hbound.noGlobal]
      exact hbound.of_sameWiring (StrategyManager.foldl_signalFrom_wiring _ _ _ _)

/-- Passing an update of another instrument does not show. -/
theorem SameView.pass_other (hsame : SameView id o o') (h : o.Wired) (hid : u.instrumentId ≠ id) :
    SameView id (o.passUpdateToOrderbook u) o' := by
  cases hindex : o.idToIndex u.instrumentId with
  | none =>
    rw [pass_of_unregistered hindex]
    exact hsame
  | some index =>
    rw [pass_of_registered hindex]
    refine ⟨hsame.idToIndex, ?_, ?_⟩
    · rw [← hsame.book]
      unfold bookFor
      cases hi : o.idToIndex id with
      | none => rfl
      | some i =>
        have hne : index.toNat ≠ i.toNat := by
          intro heq
          rw [UInt16.toNat_inj.mp heq] at hindex
          exact hid (h.distinct _ _ _ hindex hi)
        exact List.getElem?_modify_ne _ _ hne
    · have hrel := hsame.strategies
      have hstrategies := h.strategies
      generalize o.strategyManager = s at hrel hstrategies
      generalize o'.strategyManager = s' at hrel
      cases hrel with
      | none => exact .none
      | @some m m' hmm =>
        have hbound := hstrategies m rfl
        refine .some ?_
        dsimp only
        rw [onMarketData_eq hbound.noGlobal]
        have hwiring := StrategyManager.foldl_signalFrom_wiring
          ((o.booksAfter u index).getD · {}) u m (m.perInstrument u.instrumentId)
        refine ⟨hwiring.trans hmm.1, ?_⟩
        rw [hwiring.perInstrument]
        refine (StrategyManager.foldl_signalFrom_other ?_).trans hmm.2
        intro q hq hq'
        exact hid (hbound.single _ _ _ hq hq')

/-- Passing an update of the instrument keeps two managers that agree in agreement. -/
theorem SameView.pass_same (hsame : SameView id o o') (h : o.Wired) (hid : u.instrumentId = id) :
    SameView id (o.passUpdateToOrderbook u) (o'.passUpdateToOrderbook u) := by
  cases hindex : o.idToIndex id with
  | none =>
    rw [pass_of_unregistered (by rw [hid, hindex]),
      pass_of_unregistered (by rw [← hsame.idToIndex, hid, hindex])]
    exact hsame
  | some index =>
    have hindex' : o'.idToIndex id = some index := by rw [← hsame.idToIndex, hindex]
    have hbook : o.orderBooks[index.toNat]? = o'.orderBooks[index.toNat]? := by
      have heq := hsame.book
      unfold bookFor at heq
      rwa [hindex, hindex'] at heq
    have hafter : (o.booksAfter u index)[index.toNat]? = (o'.booksAfter u index)[index.toNat]? := by
      rw [booksAfter, booksAfter, List.getElem?_modify_eq, List.getElem?_modify_eq, hbook]
    rw [pass_of_registered (by rw [hid, hindex]), pass_of_registered (by rw [hid, hindex'])]
    refine ⟨hsame.idToIndex, ?_, ?_⟩
    · unfold bookFor
      rw [hindex, hindex']
      exact hafter
    · have hrel := hsame.strategies
      have hstrategies := h.strategies
      generalize o.strategyManager = s at hrel hstrategies
      generalize o'.strategyManager = s' at hrel
      cases hrel with
      | none => exact .none
      | @some m m' hmm =>
        obtain ⟨hwires, hon⟩ := hmm
        have hbound := hstrategies m rfl
        have hglobal : m'.globalStrategies = [] := hwires.globalStrategies ▸ hbound.noGlobal
        refine .some ?_
        dsimp only
        rw [onMarketData_eq hbound.noGlobal, onMarketData_eq hglobal, hid,
          ← congrFun hwires.perInstrument id]
        have hwiring := StrategyManager.foldl_signalFrom_wiring
          ((o.booksAfter u index).getD · {}) u m (m.perInstrument id)
        have hwiring' := StrategyManager.foldl_signalFrom_wiring
          ((o'.booksAfter u index).getD · {}) u m' (m.perInstrument id)
        refine ⟨hwiring.trans (hwires.trans hwiring'.symm), ?_⟩
        rw [hwiring.perInstrument]
        refine StrategyManager.foldl_signalFrom_same hon (fun q hq => hq) ?_
        intro q hq
        rw [hbound.bound id index q hindex hq]
        simp only [List.getD_eq_getElem?_getD, hafter]

/-- The view of one instrument after any sequence of updates is its view after
the updates of that instrument alone. -/
theorem SameView.pass_all (hsame : SameView id o o') (h : o.Wired) (us : List MarketUpdate) :
    SameView id (us.foldl passUpdateToOrderbook o)
      ((us.filter (fun u => u.instrumentId = id)).foldl passUpdateToOrderbook o') := by
  induction us generalizing o o' with
  | nil => exact hsame
  | cons u us ih =>
    by_cases hid : u.instrumentId = id
    · rw [List.filter_cons_of_pos (by simpa using hid)]
      exact ih (hsame.pass_same h hid) (h.passUpdateToOrderbook u)
    · rw [List.filter_cons_of_neg (by simpa using hid)]
      exact ih (hsame.pass_other h hid) (h.passUpdateToOrderbook u)

theorem bookFor_pass (o : OrderBookManager M) (u : MarketUpdate) :
    (o.passUpdateToOrderbook u).bookFor u.instrumentId =
      (o.bookFor u.instrumentId).map (fun b => b.addUpdate u) := by
  cases hindex : o.idToIndex u.instrumentId with
  | none =>
    rw [pass_of_unregistered hindex, bookFor, hindex]
    rfl
  | some index =>
    rw [pass_of_registered hindex, bookFor, bookFor, hindex]
    exact List.getElem?_modify_eq _ _ _

theorem bookFor_pass_all {us : List MarketUpdate} (hus : ∀ u ∈ us, u.instrumentId = id)
    (o : OrderBookManager M) :
    (us.foldl passUpdateToOrderbook o).bookFor id =
      (o.bookFor id).map (fun b => b.addUpdates us) := by
  induction us generalizing o with
  | nil => simp [OrderBook.addUpdates]
  | cons u us ih =>
    rw [List.foldl_cons, ih (fun v hv => hus v (List.mem_cons_of_mem u hv)),
      ← hus u List.mem_cons_self, bookFor_pass, Option.map_map]
    rfl

end OrderBookManager

end HftSystem
