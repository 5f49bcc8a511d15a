import HftSystem.LockFreeQueue
import HftSystem.OrderBook

/-!
The strategies and the manager that dispatches updates to them. A strategy reads
the order book it is bound to; `MicroMomentum` also keeps counters of its own.
The manager holds addresses of strategy objects, per instrument and for all
instruments, and writes each signal into a ring of its own.

The 64-bit arithmetic of the signals wraps around.
-/
namespace HftSystem

open TwosComplement

/-! ### Signals -/

/-- `std::clamp(deviation * 1000 / (3 * spread), -1000, 1000)` in 64 bits,
narrowed to `int32_t`. -/
def scaledSignal (deviation spread : ℤ) : ℤ :=
  let quotient := truncate 64 ((truncate 64 (deviation * 1000)).tdiv (truncate 64 (3 * spread)))
  truncate 32 (max (-1000) (min quotient 1000))

namespace MidPriceReversion

def onMarketData (book : OrderBook) (u : MarketUpdate) : ℤ :=
  let midPrice := book.getMidRaw
  let spread := truncate 64 (book.getBestAskRaw - book.getBestBidRaw)
  if spread ≤ 0 then 0
  else scaledSignal (truncate 64 (u.price.toInt - midPrice)) spread

end MidPriceReversion

namespace OrderBookImbalance

def onMarketData (book : OrderBook) : ℤ :=
  let askPrice := book.getBestAskRaw
  let askQty := book.getBestAskQtyRaw
  let bidPrice := book.getBestBidRaw
  let bidQty := book.getBestBidQtyRaw
  let denom := truncate 64 (bidQty + askQty)
  if denom = 0 then 0
  else
    let micro128 := truncate 128 (askPrice * bidQty + bidPrice * askQty)
    let microPrice := truncate 64 (micro128.tdiv denom)
    let midPrice := book.getMidRaw
    let spread := truncate 64 (askPrice - bidPrice)
    if spread ≤ 0 then 0
    else scaledSignal (truncate 64 (microPrice - midPrice)) spread

end OrderBookImbalance

structure MicroMomentum where
  aggBids : UInt32 := 0
  aggAsks : UInt32 := 0
  windowCount : UInt32 := 0
deriving DecidableEq

namespace MicroMomentum

def kMomentumWindow : UInt32 := 20

def onMarketData (m : MicroMomentum) (u : MarketUpdate) : MicroMomentum × ℤ :=
  let aggBids := if u.side = .buy then m.aggBids + 1 else m.aggBids
  let aggAsks := if u.side = .buy then m.aggAsks else m.aggAsks + 1
  let windowCount := m.windowCount + 1
  let quotient := (((aggBids.toNat : ℤ) - aggAsks.toNat) * 1000).tdiv kMomentumWindow.toNat
  let signal := truncate 32 (max (-1000) (min quotient 1000))
  if windowCount ≥ kMomentumWindow then (⟨0, 0, 0⟩, signal)
  else (⟨aggBids, aggAsks, windowCount⟩, signal)

end MicroMomentum

inductive StrategyKind where
  | midPriceReversion
  | orderBookImbalance
  | microMomentum (counters : MicroMomentum)
deriving DecidableEq

/-- A strategy object with the index of the order book it holds a reference to. -/
structure Strategy where
  book : ℕ
  kind : StrategyKind
deriving DecidableEq

namespace Strategy

def onMarketData (s : Strategy) (book : OrderBook) (u : MarketUpdate) : Strategy × ℤ :=
  match s.kind with
  | .midPriceReversion => (s, MidPriceReversion.onMarketData book u)
  | .orderBookImbalance => (s, OrderBookImbalance.onMarketData book)
  | .microMomentum counters =>
    let (counters, signal) := counters.onMarketData u
    ({ s with kind := .microMomentum counters }, signal)

@[simp] theorem onMarketData_book (s : Strategy) (book : OrderBook) (u : MarketUpdate) :
    (s.onMarketData book u).1.book = s.book := by
  unfold onMarketData
  split <;> rfl

end Strategy

/-! ### The manager -/

/-- `produced` records every signal with the address of the object it came from. -/
structure StrategyManager (M : ℕ) where
  objects : ℕ → Strategy
  perInstrument : UInt32 → List ℕ := fun _ => []
  globalStrategies : List ℕ := []
  signals : LFQueue ℤ M
  produced : List (ℕ × ℤ) := []

namespace StrategyManager

variable {M : ℕ}

def registerStrategy (m : StrategyManager M) (instrumentId : UInt32) (strat : ℕ) :
    StrategyManager M :=
  let strategies := m.perInstrument instrumentId ++ [strat]
  { m with perInstrument := Function.update m.perInstrument instrumentId strategies }

def registerGlobalStrategy (m : StrategyManager M) (strat : ℕ) : StrategyManager M :=
  { m with globalStrategies := m.globalStrategies ++ [strat] }

/-- The loop body of `onMarketData`: call one strategy and write its signal. -/
def signalFrom [NeZero M] (books : ℕ → OrderBook) (u : MarketUpdate) (m : StrategyManager M)
    (strat : ℕ) : StrategyManager M :=
  let (object, signal) := (m.objects strat).onMarketData (books (m.objects strat).book) u
  { m with
    objects := Function.update m.objects strat object
    signals := (m.signals.write m.signals.getNextToWriteTo signal).updateWriteIndex
    produced := m.produced ++ [(strat, signal)] }

def onMarketData [NeZero M] (m : StrategyManager M) (books : ℕ → OrderBook) (u : MarketUpdate) :
    StrategyManager M :=
  let m := (m.perInstrument u.instrumentId).foldl (signalFrom books u) m
  m.globalStrategies.foldl (signalFrom books u) m

/-! ### What a group of strategies sees -/

/-- The signals of the strategies at the addresses ps. -/
def signalsOf (ps : List ℕ) (m : StrategyManager M) : List (ℕ × ℤ) :=
  m.produced.filter (fun e => e.1 ∈ ps)

/-- Two managers agree on the strategies at the addresses ps: on their state and
on what they have signalled. -/
structure SameOn (ps : List ℕ) (m m' : StrategyManager M) : Prop where
  objects : ∀ p ∈ ps, m.objects p = m'.objects p
  signals : m.signalsOf ps = m'.signalsOf ps

/-- What no call of a strategy changes. -/
structure SameWiring (m m' : StrategyManager M) : Prop where
  perInstrument : m.perInstrument = m'.perInstrument
  globalStrategies : m.globalStrategies = m'.globalStrategies
  books : ∀ p, (m.objects p).book = (m'.objects p).book

variable {ps qs : List ℕ} {m m' : StrategyManager M}

theorem SameOn.refl (ps : List ℕ) (m : StrategyManager M) : SameOn ps m m := ⟨fun _ _ => rfl, rfl⟩

theorem SameOn.trans {m'' : StrategyManager M} (h : SameOn ps m m') (h' : SameOn ps m' m'') :
    SameOn ps m m'' :=
  ⟨fun p hp => (h.objects p hp).trans (h'.objects p hp), h.signals.trans h'.signals⟩

theorem SameWiring.symm (h : SameWiring m m') : SameWiring m' m :=
  ⟨h.perInstrument.symm, h.globalStrategies.symm, fun p => (h.books p).symm⟩

theorem SameWiring.trans {m'' : StrategyManager M} (h : SameWiring m m')
    (h' : SameWiring m' m'') : SameWiring m m'' :=
  ⟨h.perInstrument.trans h'.perInstrument, h.globalStrategies.trans h'.globalStrategies,
    fun p => (h.books p).trans (h'.books p)⟩

variable [NeZero M] {books books' : ℕ → OrderBook} {u : MarketUpdate}

theorem signalFrom_wiring (books : ℕ → OrderBook) (u : MarketUpdate) (m : StrategyManager M)
    (strat : ℕ) : SameWiring (signalFrom books u m strat) m := by
  refine ⟨rfl, rfl, ?_⟩
  intro p
  by_cases hp : p = strat
  · subst hp
    simp [signalFrom]
  · simp [signalFrom, Function.update_of_ne hp]

theorem foldl_signalFrom_wiring (books : ℕ → OrderBook) (u : MarketUpdate)
    (m : StrategyManager M) (qs : List ℕ) :
    SameWiring (qs.foldl (signalFrom books u) m) m := by
  induction qs generalizing m with
  | nil => exact ⟨rfl, rfl, fun _ => rfl⟩
  | cons q qs ih => exact (ih _).trans (signalFrom_wiring books u m q)

theorem signalFrom_other {strat : ℕ} (hstrat : strat ∉ ps) :
    SameOn ps (signalFrom books u m strat) m := by
  refine ⟨?_, ?_⟩
  · intro p hp
    have hne : p ≠ strat := fun heq => hstrat (heq ▸ hp)
    simp [signalFrom, Function.update_of_ne hne]
  · simp [signalsOf, signalFrom, hstrat]

/-- Calls of strategies outside the group do not show in it. -/
theorem foldl_signalFrom_other (hqs : ∀ q ∈ qs, q ∉ ps) :
    SameOn ps (qs.foldl (signalFrom books u) m) m := by
  induction qs generalizing m with
  | nil => exact .refl ps m
  | cons q qs ih =>
    exact (ih (fun r hr => hqs r (List.mem_cons_of_mem q hr))).trans
      (signalFrom_other (hqs q List.mem_cons_self))

theorem signalFrom_same (h : SameOn ps m m') {strat : ℕ} (hstrat : strat ∈ ps)
    (hbook : books (m.objects strat).book = books' (m.objects strat).book) :
    SameOn ps (signalFrom books u m strat) (signalFrom books' u m' strat) := by
  have hobject := h.objects strat hstrat
  refine ⟨?_, ?_⟩
  · intro p hp
    by_cases hps : p = strat
    · subst hps
      simp only [signalFrom, Function.update_self]
      rw [← hobject, hbook]
    · simp only [signalFrom, Function.update_of_ne hps]
      exact h.objects p hp
  · have hsignals := h.signals
    unfold signalsOf at hsignals
    simp only [signalsOf, signalFrom, List.filter_append, hsignals, ← hobject, hbook]

/-- Calls of strategies of the group give the same signals where their books agree. -/
theorem foldl_signalFrom_same (h : SameOn ps m m') (hqs : ∀ q ∈ qs, q ∈ ps)
    (hbook : ∀ q ∈ qs, books (m.objects q).book = books' (m.objects q).book) :
    SameOn ps (qs.foldl (signalFrom books u) m) (qs.foldl (signalFrom books' u) m') := by
  induction qs generalizing m m' with
  | nil => exact h
  | cons q qs ih =>
    refine ih (signalFrom_same h (hqs q List.mem_cons_self) (hbook q List.mem_cons_self))
      (fun r hr => hqs r (List.mem_cons_of_mem q hr)) ?_
    intro r hr
    rw [(signalFrom_wiring books u m q).books]
    exact hbook r (List.mem_cons_of_mem q hr)

end StrategyManager

end HftSystem
