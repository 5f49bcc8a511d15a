import Mathlib.Init

/-!
The depth update that travels from the decoder through the queues to the order
books and the strategies. Prices and quantities are raw 64-bit integers; a
quantity of zero asks for the removal of a level.
-/
namespace HftSystem

inductive Side
  | buy
  | sell
  | invalid
deriving DecidableEq, Repr

structure MarketUpdate where
  instrumentId : UInt32
  side : Side
  price : Int64
  quantity : Int64
  priceExp : Int8
  qtyExp : Int8
  timestamp : Int64
  recvTsc : UInt64
deriving DecidableEq

/-- The constructor of the source: the receive stamp starts at zero. -/
def MarketUpdate.new (instrumentId : UInt32) (side : Side) (price quantity : Int64)
    (priceExp qtyExp : Int8) (timestamp : Int64) : MarketUpdate :=
  ⟨instrumentId, side, price, quantity, priceExp, qtyExp, timestamp, 0⟩

end HftSystem
