import HftSystem.MarketUpdate
import HftSystem.TwosComplement

/-!
The limit order book of one instrument: a ring of price levels for each side,
the indices of its best and worst level, and a level counter. The two halves of
`addUpdate` are written out as the source has them, once for asks and once for
bids.

Stored prices and quantities are the values of 64-bit integers, and the level
counters are 32-bit words. The narrowing of a distance to `int` and the accumulators
of `getMidRaw` are two's-complement truncations. Where a signed operation of
`addUpdate` leaves its type, the source has undefined behaviour: differences of prices
are exact here, and counters and the index arithmetic of the guards go round.
-/
namespace HftSystem

open TwosComplement

abbrev lobDepth : ℕ := 256

instance : NeZero lobDepth := ⟨by decide⟩

def tickUnits : ℤ := 1

def midPriceN : ℕ := 5

def maxShiftStep : ℤ := lobDepth / 4

structure PriceLevel where
  price : ℤ := 0
  quantity : ℤ := 0
  isActive : Bool := false
deriving DecidableEq

structure OrderBook where
  bids : Fin lobDepth → PriceLevel := fun _ => {}
  asks : Fin lobDepth → PriceLevel := fun _ => {}
  bestBidIndex : Fin lobDepth := 0
  worstBidIndex : Fin lobDepth := 0
  bestAskIndex : Fin lobDepth := 0
  worstAskIndex : Fin lobDepth := 0
  numOfBids : Int32 := 0
  numOfAsks : Int32 := 0
  priceExp : Int8 := 0
  qtyExp : Int8 := 0
  expSet : Bool := false

namespace OrderBook

/-- A conversion to the 32-bit type `int`. -/
def castInt (x : ℤ) : ℤ := truncate 32 x

/-- `((raw % LOB_DEPTH) + LOB_DEPTH) % LOB_DEPTH`, with remainders that take the
sign of the dividend. -/
def wrapIndex (raw : ℤ) : Fin lobDepth :=
  ⟨((raw.tmod lobDepth + lobDepth).tmod lobDepth).toNat, by
    have hlow : -(lobDepth : ℤ) < raw.tmod lobDepth := Int.lt_tmod_of_pos raw (by decide)
    have hhigh := Int.tmod_lt_of_pos (raw.tmod lobDepth + lobDepth)
      (show (0 : ℤ) < lobDepth by decide)
    have hdepth : lobDepth = 256 := rfl
    omega⟩

def slotAfter (index : Fin lobDepth) (i : ℕ) : Fin lobDepth :=
  ⟨(index.val + i) % lobDepth, Nat.mod_lt _ (by decide)⟩

def slotBefore (index : Fin lobDepth) (i : ℕ) : Fin lobDepth :=
  ⟨(index.val + lobDepth - i) % lobDepth, Nat.mod_lt _ (by decide)⟩

/-- The slot of the first level of an empty side. -/
def firstIndex (price : ℤ) : Fin lobDepth :=
  ⟨price.natAbs % lobDepth, Nat.mod_lt _ (by decide)⟩

/-- The loop `for (int i = 1; i < LOB_DEPTH; ++i)` after the removal of an
endpoint: the first active slot among the candidates c 1, c 2, ... -/
def rescan (levels : Fin lobDepth → PriceLevel) (c : ℕ → Fin lobDepth) : Option (Fin lobDepth) :=
  ((List.range' 1 (lobDepth - 1)).find? (fun i => (levels (c i)).isActive)).map c

def priceToIndex (b : OrderBook) (price : ℤ) (isBid : Bool) : Fin lobDepth :=
  if isBid then
    let diff := (price - (b.bids b.bestBidIndex).price).tdiv tickUnits
    wrapIndex (b.bestBidIndex.val + diff)
  else
    let diff := (price - (b.asks b.bestAskIndex).price).tdiv tickUnits
    wrapIndex (b.bestAskIndex.val + diff)

/-! ### Asks -/

def removeAsk (b : OrderBook) (price : ℤ) : OrderBook :=
  if b.numOfAsks = 0 then b
  else
    let index := b.priceToIndex price false
    if (b.asks index).isActive = false then b
    else
      let asks := Function.update b.asks index
        { b.asks index with isActive := false, quantity := 0 }
      let numOfAsks := b.numOfAsks - 1
      if numOfAsks = 0 then
        { b with asks, numOfAsks, bestAskIndex := 0, worstAskIndex := 0 }
      else if index = b.bestAskIndex then
        { b with asks, numOfAsks,
                 bestAskIndex := (rescan asks (slotAfter index)).getD b.bestAskIndex }
      else if index = b.worstAskIndex then
        { b with asks, numOfAsks,
                 worstAskIndex := (rescan asks (slotBefore index)).getD b.worstAskIndex }
      else { b with asks, numOfAsks }

def addAsk (b : OrderBook) (price quantity : ℤ) : OrderBook :=
  let bestPrice := (b.asks b.bestAskIndex).price
  let worstPrice := (b.asks b.worstAskIndex).price
  let level : PriceLevel := ⟨price, quantity, true⟩
  if b.numOfAsks = 0 then
    let index := firstIndex price
    { b with asks := Function.update b.asks index level, bestAskIndex := index,
             worstAskIndex := index, numOfAsks := b.numOfAsks + 1 }
  else if b.bestAskIndex = b.worstAskIndex then
    let stepSize := castInt |price - bestPrice|
    if stepSize > maxShiftStep then b
    else
      let index := b.priceToIndex price false
      let worstAskIndex := if price > bestPrice then index else b.worstAskIndex
      let bestAskIndex :=
        if price > bestPrice then b.bestAskIndex
        else if price < bestPrice then index else b.bestAskIndex
      let asks := Function.update b.asks index level
      let other := asks (if bestAskIndex = index then worstAskIndex else bestAskIndex)
      { b with asks, bestAskIndex, worstAskIndex,
               numOfAsks := if price ≠ other.price then b.numOfAsks + 1 else b.numOfAsks }
  else if price ≥ bestPrice ∧ price ≤ worstPrice then
    let index := b.priceToIndex price false
    { b with asks := Function.update b.asks index level,
             numOfAsks := if (b.asks index).isActive = false then b.numOfAsks + 1
                          else b.numOfAsks }
  else if price < bestPrice then
    let stepSize := castInt (bestPrice - price)
    if stepSize > maxShiftStep ∨ castInt (b.bestAskIndex.val - stepSize) < 0 then b
    else
      let index := b.priceToIndex price false
      { b with asks := Function.update b.asks index level, bestAskIndex := index,
               numOfAsks := b.numOfAsks + 1 }
  else
    let stepSize := castInt (price - worstPrice)
    if stepSize > maxShiftStep ∨ castInt (b.worstAskIndex.val + stepSize) ≥ lobDepth then b
    else
      let index := b.priceToIndex price false
      { b with asks := Function.update b.asks index level, worstAskIndex := index,
               numOfAsks := b.numOfAsks + 1 }

/-! ### Bids -/

def removeBid (b : OrderBook) (price : ℤ) : OrderBook :=
  if b.numOfBids = 0 then b
  else
    let index := b.priceToIndex price true
    if (b.bids index).isActive = false then b
    else
      let bids := Function.update b.bids index
        { b.bids index with isActive := false, quantity := 0 }
      let numOfBids := b.numOfBids - 1
      if numOfBids = 0 then
        { b with bids, numOfBids, bestBidIndex := 0, worstBidIndex := 0 }
      else if index = b.bestBidIndex then
        { b with bids, numOfBids,
                 bestBidIndex := (rescan bids (slotBefore index)).getD b.bestBidIndex }
      else if index = b.worstBidIndex then
        { b with bids, numOfBids,
                 worstBidIndex := (rescan bids (slotAfter index)).getD b.worstBidIndex }
      else { b with bids, numOfBids }

def addBid (b : OrderBook) (price quantity : ℤ) : OrderBook :=
  let bestPrice := (b.bids b.bestBidIndex).price
  let worstPrice := (b.bids b.worstBidIndex).price
  let level : PriceLevel := ⟨price, quantity, true⟩
  if b.numOfBids = 0 then
    let index := firstIndex price
    { b with bids := Function.update b.bids index level, bestBidIndex := index,
             worstBidIndex := index, numOfBids := b.numOfBids + 1 }
  else if b.bestBidIndex = b.worstBidIndex then
    let stepSize := castInt |price - bestPrice|
    if stepSize > maxShiftStep then b
    else
      let index := b.priceToIndex price true
      let bestBidIndex := if price > bestPrice then index else b.bestBidIndex
      let worstBidIndex :=
        if price > bestPrice then b.worstBidIndex
        else if price < bestPrice then index else b.worstBidIndex
      let bids := Function.update b.bids index level
      let other := bids (if bestBidIndex = index then worstBidIndex else bestBidIndex)
      { b with bids, bestBidIndex, worstBidIndex,
               numOfBids := if price ≠ other.price then b.numOfBids + 1 else b.numOfBids }
  else if price ≤ bestPrice ∧ price ≥ worstPrice then
    let index := b.priceToIndex price true
    { b with bids := Function.update b.bids index level,
             numOfBids := if (b.bids index).isActive = false then b.numOfBids + 1
                          else b.numOfBids }
  else if price > bestPrice then
    let stepSize := castInt (price - bestPrice)
    if stepSize > maxShiftStep ∨ castInt (b.bestBidIndex.val + stepSize) ≥ lobDepth then b
    else
      let index := b.priceToIndex price true
      { b with bids := Function.update b.bids index level, bestBidIndex := index,
               numOfBids := b.numOfBids + 1 }
  else
    let stepSize := castInt (worstPrice - price)
    if stepSize > maxShiftStep ∨ castInt (b.worstBidIndex.val - stepSize) < 0 then b
    else
      let index := b.priceToIndex price true
      { b with bids := Function.update b.bids index level, worstBidIndex := index,
               numOfBids := b.numOfBids + 1 }

/-! ### Updates and readings -/

/-- The exponents are latched from the first update. -/
def latchExponents (b : OrderBook) (u : MarketUpdate) : OrderBook :=
  if b.expSet then b
  else { b with priceExp := u.priceExp, qtyExp := u.qtyExp, expSet := true }

def addUpdate (b : OrderBook) (u : MarketUpdate) : OrderBook :=
  let b := b.latchExponents u
  if u.side = .sell then
    if u.quantity.toInt = 0 then b.removeAsk u.price.toInt
    else b.addAsk u.price.toInt u.quantity.toInt
  else
    if u.quantity.toInt = 0 then b.removeBid u.price.toInt
    else b.addBid u.price.toInt u.quantity.toInt

/-- A run of updates. -/
def addUpdates (b : OrderBook) (us : List MarketUpdate) : OrderBook := us.foldl addUpdate b

def getBestAskRaw (b : OrderBook) : ℤ := (b.asks b.bestAskIndex).price

def getBestAskQtyRaw (b : OrderBook) : ℤ := (b.asks b.bestAskIndex).quantity

def getBestBidRaw (b : OrderBook) : ℤ := (b.bids b.bestBidIndex).price

def getBestBidQtyRaw (b : OrderBook) : ℤ := (b.bids b.bestBidIndex).quantity

/-- The loop `while (levels < MID_PRICE_N && steps < LOB_DEPTH)` of `getMidRaw`
from slot idx on, with the steps left and the levels found so far. It returns
the 128-bit sum of price times quantity and the 64-bit volume. -/
def midLoop (levels : Fin lobDepth → PriceLevel) (next : Fin lobDepth → Fin lobDepth) :
    (steps : ℕ) → (idx : Fin lobDepth) → (found : ℕ) → (sum vol : ℤ) → ℤ × ℤ
  | 0, _, _, sum, vol => (sum, vol)
  | steps + 1, idx, found, sum, vol =>
    if found < midPriceN then
      if (levels idx).isActive then
        midLoop levels next steps (next idx) (found + 1)
          (truncate 128 (sum + (levels idx).price * (levels idx).quantity))
          (truncate 64 (vol + (levels idx).quantity))
      else midLoop levels next steps (next idx) found sum vol
    else (sum, vol)

def getMidRaw (b : OrderBook) : ℤ :=
  let (bidsSum, bidsVol) :=
    midLoop b.bids (fun idx => slotBefore idx 1) lobDepth b.bestBidIndex 0 0 0
  let (asksSum, asksVol) :=
    midLoop b.asks (fun idx => slotAfter idx 1) lobDepth b.bestAskIndex 0 0 0
  let totalVol := truncate 64 (bidsVol + asksVol)
  if totalVol = 0 then 0
  else truncate 64 ((truncate 128 (bidsSum + asksSum)).tdiv totalVol)

end OrderBook

end HftSystem
