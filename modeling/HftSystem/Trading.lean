import HftSystem.Momentum
import HftSystem.Pipeline
import HftSystem.Progress
import HftSystem.Signals

/-!
The strategies that `main` sets up: for each of three instruments one of every kind, bound to
the book of that instrument. In every run of the two threads each strategy signals once for every
update of its instrument, as if it were alone with the book. The ring of the signals, which
nobody reads, holds the last of them.
-/
namespace HftSystem

open ByteMemory WebSocket

/-! ### One strategy alone with its book -/

namespace Strategy

/-- The signals of a strategy that hears of every update after the book has taken it. -/
def signalsOver : Strategy → OrderBook → List MarketUpdate → List ℤ
  | _, _, [] => []
  | s, b, u :: us =>
    (s.onMarketData (b.addUpdate u) u).2 ::
      signalsOver (s.onMarketData (b.addUpdate u) u).1 (b.addUpdate u) us

theorem signalsOver_microMomentum (book : ℕ) (counters : MicroMomentum) (b : OrderBook)
    (us : List MarketUpdate) :
    signalsOver ⟨book, .microMomentum counters⟩ b us = counters.signals us := by
  induction us generalizing counters b with
  | nil => rfl
  | cons u us ih => exact congrArg _ (ih _ _)

/-- A strategy without a state of its own signals what it makes of the book so far. -/
theorem signalsOver_stateless {s : Strategy} (signal : OrderBook → MarketUpdate → ℤ)
    (hs : ∀ b u, s.onMarketData b u = (s, signal b u)) (b : OrderBook) (us : List MarketUpdate) :
    signalsOver s b us = us.mapIdx (fun n u => signal (b.addUpdates (us.take (n + 1))) u) := by
  induction us generalizing b with
  | nil => rfl
  | cons u us ih =>
    rw [signalsOver, hs, List.mapIdx_cons, ih]
    rfl

end Strategy

/-! ### The objects of the manager -/

namespace StrategyManager

variable {M : ℕ}

/-- The signals of the object at address p. -/
def signalsAt (m : StrategyManager M) (p : ℕ) : List ℤ := (m.signalsOf [p]).map Prod.snd

theorem SameOn.signalsAt {m m' : StrategyManager M} {p : ℕ} (h : SameOn [p] m m') :
    m.signalsAt p = m'.signalsAt p := by
  rw [StrategyManager.signalsAt, h.signals, StrategyManager.signalsAt]

theorem signalsOf_singleton {ps : List ℕ} {p : ℕ} (hp : p ∈ ps) (m : StrategyManager M) :
    m.signalsOf [p] = (m.signalsOf ps).filter (fun e => e.1 = p) := by
  unfold signalsOf
  rw [List.filter_filter]
  refine List.filter_congr (fun e _ => ?_)
  by_cases he : e.1 = p
  · simp [he, hp]
  · simp [he]

/-- An object that is called once takes one step and signals once. -/
theorem foldl_signalFrom_at [NeZero M] (books : ℕ → OrderBook) (u : MarketUpdate) {qs : List ℕ}
    {p : ℕ} (hnodup : qs.Nodup) (hp : p ∈ qs) (m : StrategyManager M) :
    let called := (m.objects p).onMarketData (books (m.objects p).book) u
    (qs.foldl (signalFrom books u) m).objects p = called.1 ∧
      (qs.foldl (signalFrom books u) m).signalsAt p = m.signalsAt p ++ [called.2] := by
  intro called
  induction qs generalizing m with
  | nil => cases hp
  | cons q qs ih =>
    obtain ⟨hq, hqs⟩ := List.nodup_cons.mp hnodup
    rw [List.foldl_cons]
    rcases List.mem_cons.mp hp with rfl | hp
    · have hrest : SameOn [p] (qs.foldl (signalFrom books u) (signalFrom books u m p))
          (signalFrom books u m p) := by
        refine foldl_signalFrom_other (fun r hr hmem => ?_)
        rw [List.mem_singleton.mp hmem] at hr
        exact hq hr
      rw [hrest.objects p List.mem_cons_self, hrest.signalsAt]
      refine ⟨by simp [signalFrom, called], ?_⟩
      simp [StrategyManager.signalsAt, signalsOf, signalFrom, called]
    · have hne : q ∉ [p] := fun hmem => hq (List.mem_singleton.mp hmem ▸ hp)
      have hsame : SameOn [p] (signalFrom books u m q) m := signalFrom_other hne
      have hstep := ih hqs hp (signalFrom books u m q)
      rwa [hsame.objects p List.mem_cons_self, hsame.signalsAt] at hstep

/-- Three objects that are called one after another. -/
theorem foldl_signalFrom_three [NeZero M] (books : ℕ → OrderBook) (u : MarketUpdate)
    (m : StrategyManager M) (p : ℕ) :
    ∃ x y z, ([p, p + 1, p + 2].foldl (signalFrom books u) m).produced =
      m.produced ++ [(p, x), (p + 1, y), (p + 2, z)] := by
  have hone : ∀ (m : StrategyManager M) p, ∃ x, (signalFrom books u m p).produced =
      m.produced ++ [(p, x)] := fun _ _ => ⟨_, rfl⟩
  obtain ⟨x, hx⟩ := hone m p
  obtain ⟨y, hy⟩ := hone (signalFrom books u m p) (p + 1)
  obtain ⟨z, hz⟩ := hone (signalFrom books u (signalFrom books u m p) (p + 1)) (p + 2)
  refine ⟨x, y, z, ?_⟩
  rw [List.foldl_cons, List.foldl_cons, List.foldl_cons, List.foldl_nil, hz, hy, hx,
    List.append_assoc, List.append_assoc]
  rfl

theorem signalsAt_of_produced {m m' : StrategyManager M} {p : ℕ} {x y z : ℤ}
    (hproduced : m'.produced = m.produced ++ [(p, x), (p + 1, y), (p + 2, z)]) :
    [m'.signalsAt p, m'.signalsAt (p + 1), m'.signalsAt (p + 2)].map List.getLast? =
      [x, y, z].map some := by
  simp [signalsAt, signalsOf, hproduced]

end StrategyManager

namespace OrderBookManager

variable {M : ℕ}

/-- The signals of the object at address p; none without a strategy manager. -/
def signalsAt (o : OrderBookManager M) (p : ℕ) : List ℤ :=
  match o.strategyManager with
  | none => []
  | some m => m.signalsAt p

theorem SameView.signalsAt {id : UInt32} {o o' : OrderBookManager M} (h : SameView id o o')
    {m : StrategyManager M} (hm : o.strategyManager = some m) {p : ℕ}
    (hp : p ∈ m.perInstrument id) : o.signalsAt p = o'.signalsAt p := by
  have hrel := h.strategies
  rw [hm] at hrel
  unfold OrderBookManager.signalsAt
  generalize o'.strategyManager = s' at hrel
  cases hrel with
  | @some _ m' hmm =>
    rw [hm]
    dsimp only
    rw [StrategyManager.signalsAt, StrategyManager.signalsAt,
      StrategyManager.signalsOf_singleton hp, hmm.2.signals, StrategyManager.signalsOf_singleton hp]

variable [NeZero M]

/-- The strategies stay where they are and keep their books. -/
theorem strategyManager_pass_all {o : OrderBookManager M} {m : StrategyManager M} (h : o.Wired)
    (hm : o.strategyManager = some m) (us : List MarketUpdate) :
    ∃ m', (us.foldl passUpdateToOrderbook o).strategyManager = some m' ∧ m'.SameWiring m := by
  induction us generalizing o m with
  | nil => exact ⟨m, hm, rfl, rfl, fun _ => rfl⟩
  | cons u us ih =>
    rw [List.foldl_cons]
    cases hindex : o.idToIndex u.instrumentId with
    | none =>
      rw [pass_of_unregistered hindex]
      exact ih h hm
    | some index =>
      have hwired := h.passUpdateToOrderbook u
      rw [pass_of_registered hindex, hm] at hwired ⊢
      obtain ⟨m', hm', hsame⟩ := ih hwired rfl
      dsimp only at hsame
      rw [onMarketData_eq (h.strategies m hm).noGlobal] at hsame
      exact ⟨m', hm', hsame.trans (StrategyManager.foldl_signalFrom_wiring _ _ _ _)⟩

/-- Passing updates of one instrument on, its strategies signal as if alone with the book. -/
theorem signalsAt_pass_all {o : OrderBookManager M} {m : StrategyManager M} {id : UInt32} {p : ℕ}
    (h : o.Wired) (hm : o.strategyManager = some m) (hnodup : (m.perInstrument id).Nodup)
    (hp : p ∈ m.perInstrument id) {b : OrderBook} (hbook : o.bookFor id = some b)
    {us : List MarketUpdate} (hus : ∀ u ∈ us, u.instrumentId = id) :
    (us.foldl passUpdateToOrderbook o).signalsAt p =
      m.signalsAt p ++ (m.objects p).signalsOver b us := by
  induction us generalizing o m b with
  | nil => rw [List.foldl_nil, signalsAt, hm, Strategy.signalsOver, List.append_nil]
  | cons u us ih =>
    obtain ⟨hu, hrest⟩ := List.forall_mem_cons.mp hus
    obtain ⟨index, hindex, hfound⟩ := Option.bind_eq_some_iff.mp hbook
    have hbound := h.strategies m hm
    have hpass := pass_of_registered (o := o) (u := u) (by rw [hu, hindex])
    have hnext : (o.passUpdateToOrderbook u).strategyManager =
        some (m.onMarketData ((o.booksAfter u index).getD · {}) u) := by
      rw [hpass, hm]
      rfl
    have hown : (o.booksAfter u index).getD (m.objects p).book {} = b.addUpdate u := by
      rw [hbound.bound id index p hindex hp, List.getD_eq_getElem?_getD, booksAfter,
        List.getElem?_modify_eq, hfound]
      rfl
    have hbook' : (o.passUpdateToOrderbook u).bookFor id = some (b.addUpdate u) := by
      rw [← hu, bookFor_pass, hu, hbook]
      rfl
    rw [onMarketData_eq hbound.noGlobal, hu] at hnext
    have hwiring := StrategyManager.foldl_signalFrom_wiring ((o.booksAfter u index).getD · {}) u m
      (m.perInstrument id)
    obtain ⟨hobject, hsignals⟩ := StrategyManager.foldl_signalFrom_at
      ((o.booksAfter u index).getD · {}) u hnodup hp m
    rw [List.foldl_cons, ih (h.passUpdateToOrderbook u) hnext (by rwa [hwiring.perInstrument])
      (by rwa [hwiring.perInstrument]) hbook' hrest, hobject, hsignals, Strategy.signalsOver, hown,
      List.append_assoc]
    rfl

end OrderBookManager

/-! ### The strategies of `main` -/

section

open OrderBookManager VenueRegistry

variable {M : ℕ}

namespace StrategyManager

end StrategyManager

/-- The row of a traded symbol. -/
def binanceRow (symbol : String) : StreamRow := ⟨ascii "BINANCE", ascii symbol⟩

/-- The symbols that are traded, with the address of the first of their strategies. -/
def tradedInstruments : List (String × ℕ) := [("BTCUSDT", 0), ("ETHUSDT", 3), ("BNBUSDT", 6)]

/-- The strategies of an instrument: three of them, from address p on, on book i. -/
structure Trades (m : StrategyManager M) (id : UInt32) (p i : ℕ) : Prop where
  perInstrument : m.perInstrument id = [p, p + 1, p + 2]
  reversion : m.objects p = ⟨i, .midPriceReversion⟩
  imbalance : m.objects (p + 1) = ⟨i, .orderBookImbalance⟩
  momentum : m.objects (p + 2) = ⟨i, .microMomentum {}⟩

section

variable {a b c : UInt32} (i j k : ℕ) (signals : LFQueue ℤ M)

end

/-- The manager with which the threads start: the instruments have rows, and each has its
strategies. -/
structure Ready (rows : List StreamRow) (signals : LFQueue ℤ M) (m : StrategyManager M) :
    Prop where
  bound : BoundTo m (managerOf rows m).idToIndex
  known : ∀ t ∈ tradedInstruments, binanceRow t.1 ∈ rows
  trades : ∀ t ∈ tradedInstruments, ∃ i, Trades m (idOf rows (binanceRow t.1)) t.2 i
  others : ∀ id, (∀ t ∈ tradedInstruments, id ≠ idOf rows (binanceRow t.1)) →
    m.perInstrument id = []
  produced : m.produced = []
  ring : m.signals = signals

/-- The book of an instrument holds its updates, and each of its three strategies has signalled
once for each of them: the n-th signal is what the strategy makes of the first n updates. -/
structure SignalsOf (o : OrderBookManager M) (id : UInt32) (p : ℕ) (own : List MarketUpdate) :
    Prop where
  book : o.bookFor id = some (OrderBook.addUpdates {} own)
  reversion : o.signalsAt p = own.mapIdx (fun n u =>
    MidPriceReversion.onMarketData (OrderBook.addUpdates {} (own.take (n + 1))) u)
  imbalance : o.signalsAt (p + 1) = own.mapIdx (fun n _ =>
    OrderBookImbalance.onMarketData (OrderBook.addUpdates {} (own.take (n + 1))))
  momentum : o.signalsAt (p + 2) = MicroMomentum.signals {} own

/-- The three signals for an update of an instrument that has had the updates `own`. -/
def signalRound (own : List MarketUpdate) (u : MarketUpdate) : List ℤ :=
  let book := OrderBook.addUpdates {} (own ++ [u])
  [MidPriceReversion.onMarketData book u, OrderBookImbalance.onMarketData book,
    ((MicroMomentum.after own).onMarketData u).2]

theorem signals_concat (us : List MarketUpdate) (u : MarketUpdate) (m : MicroMomentum) :
    m.signals (us ++ [u]) = m.signals us ++
      [((us.foldl (fun m u => (m.onMarketData u).1) m).onMarketData u).2] := by
  induction us generalizing m with
  | nil => rfl
  | cons v us ih => exact congrArg _ (ih _)

/-- The last signals of an instrument's strategies are those of the round of its last update. -/
theorem SignalsOf.getLast? {o : OrderBookManager M} {id : UInt32} {p : ℕ}
    {own : List MarketUpdate} {u : MarketUpdate} (h : SignalsOf o id p (own ++ [u])) :
    [o.signalsAt p, o.signalsAt (p + 1), o.signalsAt (p + 2)].map List.getLast? =
      (signalRound own u).map some := by
  have htake : (own ++ [u]).take (own.length + 1) = own ++ [u] := by
    rw [List.take_of_length_le]
    simp
  rw [h.reversion, h.imbalance, h.momentum, List.mapIdx_concat, List.mapIdx_concat, htake,
    signals_concat]
  simp [signalRound, MicroMomentum.after]

/-! Every signal is clamped. -/

variable [NeZero M] {rows : List StreamRow} {signals : LFQueue ℤ M} {m : StrategyManager M}

theorem Ready.signalsOf (h : Ready rows signals m) (hsep : Separable rows) {t : String × ℕ}
    (ht : t ∈ tradedInstruments) (us : List MarketUpdate) :
    SignalsOf (us.foldl passUpdateToOrderbook (managerOf rows m)) (idOf rows (binanceRow t.1)) t.2
      (us.filter (fun u => u.instrumentId = idOf rows (binanceRow t.1))) := by
  obtain ⟨i, htrades⟩ := h.trades t ht
  have hwired := wired_managerOf hsep h.bound
  have hbook := bookFor_managerOf m (h.known t ht)
  have hview := SameView.pass_all (.refl (idOf rows (binanceRow t.1)) (managerOf rows m)) hwired us
  have hown : ∀ u ∈ us.filter (fun u => u.instrumentId = idOf rows (binanceRow t.1)),
      u.instrumentId = idOf rows (binanceRow t.1) := by
    intro u hu
    simpa using (List.mem_filter.mp hu).2
  have hnodup : (m.perInstrument (idOf rows (binanceRow t.1))).Nodup := by
    rw [htrades.perInstrument]
    simp
  have hsignals : ∀ p ∈ m.perInstrument (idOf rows (binanceRow t.1)),
      (us.foldl passUpdateToOrderbook (managerOf rows m)).signalsAt p =
        (m.objects p).signalsOver {}
          (us.filter (fun u => u.instrumentId = idOf rows (binanceRow t.1))) := by
    intro p hp
    obtain ⟨m', hm', hsame⟩ := strategyManager_pass_all hwired rfl us
    rw [hview.signalsAt hm' (by rwa [hsame.perInstrument]),
      signalsAt_pass_all hwired rfl hnodup hp hbook hown]
    simp [StrategyManager.signalsAt, StrategyManager.signalsOf, h.produced]
  have hmem : t.2 ∈ m.perInstrument (idOf rows (binanceRow t.1)) ∧
      t.2 + 1 ∈ m.perInstrument (idOf rows (binanceRow t.1)) ∧
      t.2 + 2 ∈ m.perInstrument (idOf rows (binanceRow t.1)) := by
    rw [htrades.perInstrument]
    simp
  refine ⟨?_, ?_, ?_, ?_⟩
  · rw [hview.book, bookFor_pass_all hown, hbook]
    rfl
  · rw [hsignals _ hmem.1, htrades.reversion]
    exact Strategy.signalsOver_stateless MidPriceReversion.onMarketData (fun _ _ => rfl) {} _
  · rw [hsignals _ hmem.2.1, htrades.imbalance]
    exact Strategy.signalsOver_stateless (fun b _ => OrderBookImbalance.onMarketData b)
      (fun _ _ => rfl) {} _
  · rw [hsignals _ hmem.2.2, htrades.momentum]
    exact Strategy.signalsOver_microMomentum _ _ _ _

/-! ### The ring of the signals -/

/-- The ring counts every signal and holds the last of them, as many as it has slots. -/
structure HoldsLast (m : StrategyManager M) : Prop where
  size : m.signals.size = m.produced.length
  next : m.signals.getNextToWriteTo = LFQueue.ringSlot M m.produced.length
  held : ∀ j e, m.produced[j]? = some e → m.produced.length ≤ j + M →
    m.signals.store (LFQueue.ringSlot M j) = e.2

theorem HoldsLast.signalFrom {m : StrategyManager M} (h : HoldsLast m) (books : ℕ → OrderBook)
    (u : MarketUpdate) (p : ℕ) : HoldsLast (StrategyManager.signalFrom books u m p) := by
  have hpos : 0 < M := Nat.pos_of_ne_zero (NeZero.ne M)
  refine ⟨?_, ?_, ?_⟩
  · simpa [StrategyManager.signalFrom, LFQueue.updateWriteIndex, LFQueue.write, LFQueue.size]
      using h.size
  · have hnext := h.next
    simp only [StrategyManager.signalFrom, LFQueue.updateWriteIndex, LFQueue.write,
      LFQueue.getNextToWriteTo, List.length_append, List.length_singleton] at hnext ⊢
    rw [hnext, LFQueue.ringSlot_succ]
  · intro j e hj hlast
    simp only [StrategyManager.signalFrom, LFQueue.updateWriteIndex, LFQueue.write,
      List.length_append, List.length_singleton] at hj hlast ⊢
    rw [h.next]
    rcases lt_or_eq_of_le (Nat.lt_succ_iff.mp (by simpa using (List.getElem?_eq_some_iff.mp hj).1))
      with hlt | rfl
    · rw [Function.update_of_ne]
      · rw [List.getElem?_append_left hlt] at hj
        exact h.held j e hj (by omega)
      · intro hslot
        have := LFQueue.eq_of_ringSlot_eq hslot (by omega) (by omega)
        omega
    · rw [List.getElem?_concat_length] at hj
      rw [Function.update_self, ← Option.some.inj hj]

theorem HoldsLast.foldl_signalFrom {m : StrategyManager M} (h : HoldsLast m)
    (books : ℕ → OrderBook) (u : MarketUpdate) (ps : List ℕ) :
    HoldsLast (ps.foldl (StrategyManager.signalFrom books u) m) := by
  induction ps generalizing m with
  | nil => exact h
  | cons p ps ih => exact ih (h.signalFrom books u p)

/-- The signals of a run: a round for each update of a traded instrument. -/
def signalStream (ids : List UInt32) (us : List MarketUpdate) : List ℤ :=
  (us.mapIdx (fun n u =>
    if u.instrumentId ∈ ids then
      signalRound ((us.take n).filter (fun v => v.instrumentId = u.instrumentId)) u
    else [])).flatten

theorem signalStream_concat (ids : List UInt32) (us : List MarketUpdate) (u : MarketUpdate) :
    signalStream ids (us ++ [u]) = signalStream ids us ++
      if u.instrumentId ∈ ids then
        signalRound (us.filter (fun v => v.instrumentId = u.instrumentId)) u
      else [] := by
  have hold : us.mapIdx (fun n v => if v.instrumentId ∈ ids then
      signalRound (((us ++ [u]).take n).filter (fun w => w.instrumentId = v.instrumentId)) v
      else []) = us.mapIdx (fun n v => if v.instrumentId ∈ ids then
      signalRound ((us.take n).filter (fun w => w.instrumentId = v.instrumentId)) v else []) := by
    refine List.ext_getElem (by simp) (fun n hn _ => ?_)
    rw [List.length_mapIdx] at hn
    rw [List.getElem_mapIdx, List.getElem_mapIdx, List.take_append_of_le_length hn.le]
  rw [signalStream, List.mapIdx_concat, hold, List.flatten_append, List.flatten_singleton,
    List.take_left, signalStream]

/-- The ids of the traded instruments. -/
def tradedIds (rows : List StreamRow) : List UInt32 :=
  tradedInstruments.map (fun t => idOf rows (binanceRow t.1))

/-- An update of a traded instrument adds its round. -/
theorem Ready.round (h : Ready rows signals m) (hsep : Separable rows) {us : List MarketUpdate}
    {u : MarketUpdate} {m' : StrategyManager M}
    (hm' : (us.foldl passUpdateToOrderbook (managerOf rows m)).strategyManager = some m')
    (hlast : HoldsLast m') {t : String × ℕ} (ht : t ∈ tradedInstruments)
    (hu : u.instrumentId = idOf rows (binanceRow t.1)) :
    ∃ m'', ((us ++ [u]).foldl passUpdateToOrderbook (managerOf rows m)).strategyManager = some m'' ∧
      m''.produced.map Prod.snd = m'.produced.map Prod.snd ++
        signalRound (us.filter (fun v => v.instrumentId = u.instrumentId)) u ∧ HoldsLast m'' := by
  obtain ⟨i, htrades⟩ := h.trades t ht
  obtain ⟨_, hsome, hsame⟩ := strategyManager_pass_all (wired_managerOf hsep h.bound) rfl us
  obtain rfl := Option.some.inj (hm'.symm.trans hsome)
  obtain ⟨index, hindex, -⟩ := Option.bind_eq_some_iff.mp (bookFor_managerOf m (h.known t ht))
  have hglobal : m'.globalStrategies = [] := hsame.globalStrategies.trans h.bound.noGlobal
  have hround := h.signalsOf hsep ht (us ++ [u])
  rw [List.filter_append, ← hu, List.filter_cons_of_pos (by simp), List.filter_nil] at hround
  have hrounds := hround.getLast?
  have hnext : ∃ books,
      ((us ++ [u]).foldl passUpdateToOrderbook (managerOf rows m)).strategyManager =
        some ([t.2, t.2 + 1, t.2 + 2].foldl (StrategyManager.signalFrom books u) m') := by
    refine ⟨fun i =>
      ((us.foldl passUpdateToOrderbook (managerOf rows m)).booksAfter u index).getD i {}, ?_⟩
    rw [List.foldl_append, List.foldl_cons, List.foldl_nil,
      pass_of_registered (show _ = some index by rw [idToIndex_pass_all, hu, hindex]), hm',
      Option.map_some, onMarketData_eq hglobal, hsame.perInstrument, hu, htrades.perInstrument]
  obtain ⟨books, hnext⟩ := hnext
  obtain ⟨x, y, z, hproduced⟩ := StrategyManager.foldl_signalFrom_three books u m' t.2
  refine ⟨_, hnext, ?_, hlast.foldl_signalFrom _ _ _⟩
  simp only [OrderBookManager.signalsAt, hnext] at hrounds
  rw [StrategyManager.signalsAt_of_produced hproduced] at hrounds
  rw [hproduced, List.map_append, ← List.map_injective_iff.mpr (Option.some_injective ℤ) hrounds]
  rfl

theorem Ready.signalStream (h : Ready rows signals m) (hsep : Separable rows)
    (hring : HoldsLast m) (us : List MarketUpdate) :
    ∃ m', (us.foldl passUpdateToOrderbook (managerOf rows m)).strategyManager = some m' ∧
      m'.produced.map Prod.snd = signalStream (tradedIds rows) us ∧ HoldsLast m' := by
  induction us using List.reverseRecOn with
  | nil => exact ⟨m, rfl, by rw [h.produced]; rfl, hring⟩
  | append_singleton us u ih =>
    obtain ⟨m', hm', hstream, hlast⟩ := ih
    rw [signalStream_concat, ← hstream]
    by_cases hu : u.instrumentId ∈ tradedIds rows
    · rw [if_pos hu]
      obtain ⟨t, ht, hid⟩ := List.mem_map.mp hu
      exact h.round hsep hm' hlast ht hid.symm
    · rw [if_neg hu, List.append_nil]
      refine ⟨m', ?_, rfl, hlast⟩
      obtain ⟨_, hsome, hsame⟩ := strategyManager_pass_all (wired_managerOf hsep h.bound) rfl us
      obtain rfl := Option.some.inj (hm'.symm.trans hsome)
      have hglobal : m'.globalStrategies = [] := hsame.globalStrategies.trans h.bound.noGlobal
      have hnone : m'.perInstrument u.instrumentId = [] := by
        rw [hsame.perInstrument]
        exact h.others _ (fun t ht heq => hu (List.mem_map.mpr ⟨t, ht, heq.symm⟩))
      rw [List.foldl_append, List.foldl_cons, List.foldl_nil]
      cases hindex : (us.foldl passUpdateToOrderbook (managerOf rows m)).idToIndex
        u.instrumentId with
      | none => rw [pass_of_unregistered hindex, hm']
      | some index =>
        rw [pass_of_registered hindex, hm', Option.map_some, onMarketData_eq hglobal, hnone]
        rfl

variable {N : ℕ} [NeZero N]

open Transitions

end

end HftSystem
