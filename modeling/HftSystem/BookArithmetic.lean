import HftSystem.BookSides
import HftSystem.Tracing

/-!
The signed operations of `addUpdate`. The update is computed once more, with the exact
result of every difference of prices, every index and every counter recorded in the order
of the source. The source has defined behaviour exactly while each result fits its type.
-/
namespace HftSystem.OrderBook

open Tracing TwosComplement

/-- A signed operation and its exact result, in `int64_t` for prices and else in `int`. -/
inductive BookOp where
  | price (exact : ℤ)
  | index (exact : ℤ)
  | counter (exact : ℤ)
deriving DecidableEq

namespace BookOp

def Ok : BookOp → Prop
  | price x => Fits 64 x
  | index x => Fits 32 x
  | counter x => Fits 32 x

/-- Only the counters are asked to fit. -/
def CounterOk : BookOp → Prop
  | counter x => Fits 32 x
  | _ => True

instance : DecidablePred Ok := fun op => by
  cases op <;> exact inferInstanceAs (Decidable (Fits _ _))

instance : DecidablePred CounterOk
  | price _ => inferInstanceAs (Decidable True)
  | index _ => inferInstanceAs (Decidable True)
  | counter x => inferInstanceAs (Decidable (Fits 32 x))

theorem Ok.counterOk : ∀ {op : BookOp}, op.Ok → op.CounterOk
  | price _, _ => trivial
  | index _, _ => trivial
  | counter _, h => h

end BookOp

/-! ### The update with its operations -/

def priceOp (exact : ℤ) : Traced BookOp ℤ := .record (.price exact) exact

def indexOp (exact : ℤ) : Traced BookOp ℤ := .record (.index exact) (castInt exact)

/-- The operator `++` on a counter. -/
def countUp (counter : Int32) : Traced BookOp Int32 :=
  .record (.counter (counter.toInt + 1)) (counter + 1)

def countDown (counter : Int32) : Traced BookOp Int32 :=
  .record (.counter (counter.toInt - 1)) (counter - 1)

def countUpIf (c : Prop) [Decidable c] (counter : Int32) : Traced BookOp Int32 :=
  if c then countUp counter else return counter

def tracedIndex (b : OrderBook) (price : ℤ) (isBid : Bool) : Traced BookOp (Fin lobDepth) :=
  if isBid then do
    let diff ← priceOp (price - (b.bids b.bestBidIndex).price)
    let raw ← priceOp (b.bestBidIndex.val + diff.tdiv tickUnits)
    return wrapIndex raw
  else do
    let diff ← priceOp (price - (b.asks b.bestAskIndex).price)
    let raw ← priceOp (b.bestAskIndex.val + diff.tdiv tickUnits)
    return wrapIndex raw

def tracedRemoveAsk (b : OrderBook) (price : ℤ) : Traced BookOp OrderBook :=
  if b.numOfAsks = 0 then return b
  else do
    let index ← b.tracedIndex price false
    if (b.asks index).isActive = false then return b
    else do
      let asks := Function.update b.asks index
        { b.asks index with isActive := false, quantity := 0 }
      let numOfAsks ← countDown b.numOfAsks
      if numOfAsks = 0 then
        return { b with asks, numOfAsks, bestAskIndex := 0, worstAskIndex := 0 }
      else if index = b.bestAskIndex then
        return { b with asks, numOfAsks,
                        bestAskIndex := (rescan asks (slotAfter index)).getD b.bestAskIndex }
      else if index = b.worstAskIndex then
        return { b with asks, numOfAsks,
                        worstAskIndex := (rescan asks (slotBefore index)).getD b.worstAskIndex }
      else return { b with asks, numOfAsks }

/-- The second guard of a step beyond an endpoint is computed only if the first one passes. -/
def tracedAddAsk (b : OrderBook) (price quantity : ℤ) : Traced BookOp OrderBook :=
  let bestPrice := (b.asks b.bestAskIndex).price
  let worstPrice := (b.asks b.worstAskIndex).price
  let level : PriceLevel := ⟨price, quantity, true⟩
  if b.numOfAsks = 0 then do
    let _ ← priceOp |price|
    let index := firstIndex price
    let numOfAsks ← countUp b.numOfAsks
    return { b with asks := Function.update b.asks index level, bestAskIndex := index,
                    worstAskIndex := index, numOfAsks }
  else if b.bestAskIndex = b.worstAskIndex then do
    let diff ← priceOp (price - bestPrice)
    let distance ← priceOp |diff|
    if castInt distance > maxShiftStep then return b
    else do
      let index ← b.tracedIndex price false
      let worstAskIndex := if price > bestPrice then index else b.worstAskIndex
      let bestAskIndex :=
        if price > bestPrice then b.bestAskIndex
        else if price < bestPrice then index else b.bestAskIndex
      let asks := Function.update b.asks index level
      let other := asks (if bestAskIndex = index then worstAskIndex else bestAskIndex)
      let numOfAsks ← countUpIf (price ≠ other.price) b.numOfAsks
      return { b with asks, bestAskIndex, worstAskIndex, numOfAsks }
  else if price ≥ bestPrice ∧ price ≤ worstPrice then do
    let index ← b.tracedIndex price false
    let numOfAsks ← countUpIf ((b.asks index).isActive = false) b.numOfAsks
    return { b with asks := Function.update b.asks index level, numOfAsks }
  else if price < bestPrice then do
    let distance ← priceOp (bestPrice - price)
    if castInt distance > maxShiftStep then return b
    else do
      let shifted ← indexOp (b.bestAskIndex.val - castInt distance)
      if shifted < 0 then return b
      else do
        let index ← b.tracedIndex price false
        let numOfAsks ← countUp b.numOfAsks
        return { b with asks := Function.update b.asks index level, bestAskIndex := index,
                        numOfAsks }
  else do
    let distance ← priceOp (price - worstPrice)
    if castInt distance > maxShiftStep then return b
    else do
      let shifted ← indexOp (b.worstAskIndex.val + castInt distance)
      if shifted ≥ lobDepth then return b
      else do
        let index ← b.tracedIndex price false
        let numOfAsks ← countUp b.numOfAsks
        return { b with asks := Function.update b.asks index level, worstAskIndex := index,
                        numOfAsks }

def tracedRemoveBid (b : OrderBook) (price : ℤ) : Traced BookOp OrderBook :=
  if b.numOfBids = 0 then return b
  else do
    let index ← b.tracedIndex price true
    if (b.bids index).isActive = false then return b
    else do
      let bids := Function.update b.bids index
        { b.bids index with isActive := false, quantity := 0 }
      let numOfBids ← countDown b.numOfBids
      if numOfBids = 0 then
        return { b with bids, numOfBids, bestBidIndex := 0, worstBidIndex := 0 }
      else if index = b.bestBidIndex then
        return { b with bids, numOfBids,
                        bestBidIndex := (rescan bids (slotBefore index)).getD b.bestBidIndex }
      else if index = b.worstBidIndex then
        return { b with bids, numOfBids,
                        worstBidIndex := (rescan bids (slotAfter index)).getD b.worstBidIndex }
      else return { b with bids, numOfBids }

def tracedAddBid (b : OrderBook) (price quantity : ℤ) : Traced BookOp OrderBook :=
  let bestPrice := (b.bids b.bestBidIndex).price
  let worstPrice := (b.bids b.worstBidIndex).price
  let level : PriceLevel := ⟨price, quantity, true⟩
  if b.numOfBids = 0 then do
    let _ ← priceOp |price|
    let index := firstIndex price
    let numOfBids ← countUp b.numOfBids
    return { b with bids := Function.update b.bids index level, bestBidIndex := index,
                    worstBidIndex := index, numOfBids }
  else if b.bestBidIndex = b.worstBidIndex then do
    let diff ← priceOp (price - bestPrice)
    let distance ← priceOp |diff|
    if castInt distance > maxShiftStep then return b
    else do
      let index ← b.tracedIndex price true
      let bestBidIndex := if price > bestPrice then index else b.bestBidIndex
      let worstBidIndex :=
        if price > bestPrice then b.worstBidIndex
        else if price < bestPrice then index else b.worstBidIndex
      let bids := Function.update b.bids index level
      let other := bids (if bestBidIndex = index then worstBidIndex else bestBidIndex)
      let numOfBids ← countUpIf (price ≠ other.price) b.numOfBids
      return { b with bids, bestBidIndex, worstBidIndex, numOfBids }
  else if price ≤ bestPrice ∧ price ≥ worstPrice then do
    let index ← b.tracedIndex price true
    let numOfBids ← countUpIf ((b.bids index).isActive = false) b.numOfBids
    return { b with bids := Function.update b.bids index level, numOfBids }
  else if price > bestPrice then do
    let distance ← priceOp (price - bestPrice)
    if castInt distance > maxShiftStep then return b
    else do
      let shifted ← indexOp (b.bestBidIndex.val + castInt distance)
      if shifted ≥ lobDepth then return b
      else do
        let index ← b.tracedIndex price true
        let numOfBids ← countUp b.numOfBids
        return { b with bids := Function.update b.bids index level, bestBidIndex := index,
                        numOfBids }
  else do
    let distance ← priceOp (worstPrice - price)
    if castInt distance > maxShiftStep then return b
    else do
      let shifted ← indexOp (b.worstBidIndex.val - castInt distance)
      if shifted < 0 then return b
      else do
        let index ← b.tracedIndex price true
        let numOfBids ← countUp b.numOfBids
        return { b with bids := Function.update b.bids index level, worstBidIndex := index,
                        numOfBids }

def tracedUpdate (b : OrderBook) (u : MarketUpdate) : Traced BookOp OrderBook :=
  let b := b.latchExponents u
  if u.side = .sell then
    if u.quantity.toInt = 0 then b.tracedRemoveAsk u.price.toInt
    else b.tracedAddAsk u.price.toInt u.quantity.toInt
  else
    if u.quantity.toInt = 0 then b.tracedRemoveBid u.price.toInt
    else b.tracedAddBid u.price.toInt u.quantity.toInt

/-- No signed operation of the update leaves its type. -/
def Defined (b : OrderBook) (u : MarketUpdate) : Prop :=
  Traced.Satisfies BookOp.Ok (b.tracedUpdate u)

/-- The update takes no counter out of the range of `int`. -/
def CounterFits (b : OrderBook) (u : MarketUpdate) : Prop :=
  Traced.Satisfies BookOp.CounterOk (b.tracedUpdate u)

instance (b : OrderBook) (u : MarketUpdate) : Decidable (b.Defined u) :=
  inferInstanceAs (Decidable (∀ op ∈ (b.tracedUpdate u).events, op.Ok))

instance (b : OrderBook) (u : MarketUpdate) : Decidable (b.CounterFits u) :=
  inferInstanceAs (Decidable (∀ op ∈ (b.tracedUpdate u).events, op.CounterOk))

theorem Defined.counterFits {b : OrderBook} {u : MarketUpdate} (h : b.Defined u) :
    b.CounterFits u := fun op hop => (h op hop).counterOk

/-! ### It is the same update -/

section Value

variable (b : OrderBook) (p q : ℤ)

theorem value_tracedIndex (isBid : Bool) :
    (b.tracedIndex p isBid).value = b.priceToIndex p isBid := by
  cases isBid with
  | false => rfl
  | true => rfl

theorem value_countUpIf (c : Prop) [Decidable c] (counter : Int32) :
    (countUpIf c counter).value = if c then counter + 1 else counter := Traced.value_ite _ _ _

theorem value_tracedRemoveAsk : (b.tracedRemoveAsk p).value = b.removeAsk p := by
  unfold tracedRemoveAsk removeAsk
  simp only [Traced.value_ite, Traced.value_bind, value_tracedIndex]
  rfl

theorem value_tracedRemoveBid : (b.tracedRemoveBid p).value = b.removeBid p := by
  unfold tracedRemoveBid removeBid
  simp only [Traced.value_ite, Traced.value_bind, value_tracedIndex]
  rfl

theorem value_tracedAddAsk : (b.tracedAddAsk p q).value = b.addAsk p q := by
  unfold tracedAddAsk addAsk
  simp only [Traced.value_ite, Traced.value_bind, value_tracedIndex, value_countUpIf, ite_or]
  rfl

theorem value_tracedAddBid : (b.tracedAddBid p q).value = b.addBid p q := by
  unfold tracedAddBid addBid
  simp only [Traced.value_ite, Traced.value_bind, value_tracedIndex, value_countUpIf, ite_or]
  rfl

theorem value_tracedUpdate (u : MarketUpdate) : (b.tracedUpdate u).value = b.addUpdate u := by
  unfold tracedUpdate addUpdate
  simp only [Traced.value_ite, value_tracedRemoveAsk, value_tracedAddAsk, value_tracedRemoveBid,
    value_tracedAddBid]

end Value

/-! ### Counters that fit -/

/-- If the computation moves a counter that was n, the next value of n is in the range of `int`. -/
def HasRoom (counter : OrderBook → Int32) (n : Int32) (x : Traced BookOp OrderBook) : Prop :=
  Traced.Satisfies BookOp.CounterOk x → counter x.value ≠ n → n.toInt + 1 < 2 ^ 31

section Room

variable {counter : OrderBook → Int32} {n : Int32}

theorem HasRoom.pure {b : OrderBook} (hsame : counter b = n) : HasRoom counter n (pure b) :=
  fun _ hmoved => absurd hsame hmoved

theorem HasRoom.bind {α : Type} {x : Traced BookOp α} {f : α → Traced BookOp OrderBook}
    (h : HasRoom counter n (f x.value)) : HasRoom counter n (x >>= f) :=
  fun hfits => h ((Traced.satisfies_bind x f).mp hfits).2

theorem HasRoom.ite {c : Prop} [Decidable c] {x y : Traced BookOp OrderBook}
    (hx : HasRoom counter n x) (hy : HasRoom counter n y) :
    HasRoom counter n (if c then x else y) := by
  split
  · exact hx
  · exact hy

theorem room_of_countUp (h : Traced.Satisfies BookOp.CounterOk (countUp n)) :
    n.toInt + 1 < 2 ^ 31 := (h _ List.mem_cons_self).2

theorem HasRoom.countUp (f : Int32 → Traced BookOp OrderBook) :
    HasRoom counter n (countUp n >>= f) :=
  fun hfits _ => room_of_countUp ((Traced.satisfies_bind _ f).mp hfits).1

theorem HasRoom.countUpIf {c : Prop} [Decidable c] {f : Int32 → Traced BookOp OrderBook}
    (hsame : counter (f n).value = n) : HasRoom counter n (countUpIf c n >>= f) := by
  intro hfits hmoved
  have hcounted := ((Traced.satisfies_bind _ f).mp hfits).1
  rw [Traced.value_bind, value_countUpIf] at hmoved
  unfold OrderBook.countUpIf at hcounted
  by_cases hc : c
  · rw [if_pos hc] at hcounted
    exact room_of_countUp hcounted
  · rw [if_neg hc] at hmoved
    exact absurd hsame hmoved

variable (b : OrderBook) (p q : ℤ)

theorem hasRoom_tracedAddAsk : HasRoom numOfAsks b.numOfAsks (b.tracedAddAsk p q) := by
  unfold tracedAddAsk
  refine .ite (.bind (.countUp _)) (.ite (.bind (.bind (.ite (.pure rfl) (.bind (.countUpIf rfl)))))
    (.ite (.bind (.countUpIf rfl)) (.ite ?_ ?_)))
  · exact .bind (.ite (.pure rfl) (.bind (.ite (.pure rfl) (.bind (.countUp _)))))
  · exact .bind (.ite (.pure rfl) (.bind (.ite (.pure rfl) (.bind (.countUp _)))))

theorem hasRoom_tracedAddBid : HasRoom numOfBids b.numOfBids (b.tracedAddBid p q) := by
  unfold tracedAddBid
  refine .ite (.bind (.countUp _)) (.ite (.bind (.bind (.ite (.pure rfl) (.bind (.countUpIf rfl)))))
    (.ite (.bind (.countUpIf rfl)) (.ite ?_ ?_)))
  · exact .bind (.ite (.pure rfl) (.bind (.ite (.pure rfl) (.bind (.countUp _)))))
  · exact .bind (.ite (.pure rfl) (.bind (.ite (.pure rfl) (.bind (.countUp _)))))

end Room

section Fits

variable {b : OrderBook} {u : MarketUpdate}

/-- The latch only touches the exponents. -/
theorem latchExponents_eq (b : OrderBook) (u : MarketUpdate) :
    ∃ x y z, b.latchExponents u = { b with priceExp := x, qtyExp := y, expSet := z } := by
  unfold latchExponents
  split
  · exact ⟨_, _, _, rfl⟩
  · exact ⟨_, _, _, rfl⟩

theorem latchExponents_numOfAsks (b : OrderBook) (u : MarketUpdate) :
    (b.latchExponents u).numOfAsks = b.numOfAsks := by
  obtain ⟨x, y, z, hlatch⟩ := latchExponents_eq b u
  rw [hlatch]

theorem latchExponents_numOfBids (b : OrderBook) (u : MarketUpdate) :
    (b.latchExponents u).numOfBids = b.numOfBids := by
  obtain ⟨x, y, z, hlatch⟩ := latchExponents_eq b u
  rw [hlatch]

/-- A defined removal of an active slot has room below its counter. -/
theorem fits_countDown_asks {p : ℤ} (h : Traced.Satisfies BookOp.Ok (b.tracedRemoveAsk p))
    (hcount : b.numOfAsks ≠ 0) (hactive : (b.asks (b.priceToIndex p false)).isActive = true) :
    Fits 32 (b.numOfAsks.toInt - 1) := by
  unfold tracedRemoveAsk at h
  rw [if_neg hcount] at h
  replace h := ((Traced.satisfies_bind _ _).mp h).2
  rw [value_tracedIndex, if_neg (by rw [hactive]; decide)] at h
  exact ((Traced.satisfies_bind _ _).mp h).1 _ List.mem_cons_self

theorem fits_countDown_bids {p : ℤ} (h : Traced.Satisfies BookOp.Ok (b.tracedRemoveBid p))
    (hcount : b.numOfBids ≠ 0) (hactive : (b.bids (b.priceToIndex p true)).isActive = true) :
    Fits 32 (b.numOfBids.toInt - 1) := by
  unfold tracedRemoveBid at h
  rw [if_neg hcount] at h
  replace h := ((Traced.satisfies_bind _ _).mp h).2
  rw [value_tracedIndex, if_neg (by rw [hactive]; decide)] at h
  exact ((Traced.satisfies_bind _ _).mp h).1 _ List.mem_cons_self

/-- An add that moves the ask counter had room for it. -/
theorem CounterFits.asks (h : b.CounterFits u) (hsell : u.side = .sell) (hq : u.quantity.toInt ≠ 0)
    (hmoved : (b.addUpdate u).numOfAsks ≠ b.numOfAsks) : b.numOfAsks.toInt + 1 < 2 ^ 31 := by
  have hroom := hasRoom_tracedAddAsk (b.latchExponents u) u.price.toInt u.quantity.toInt
  have htraced : b.tracedUpdate u =
      (b.latchExponents u).tracedAddAsk u.price.toInt u.quantity.toInt := by
    unfold tracedUpdate
    dsimp only
    rw [if_pos hsell, if_neg hq]
  unfold CounterFits at h
  rw [← value_tracedUpdate, htraced] at hmoved
  rw [htraced] at h
  rw [latchExponents_numOfAsks] at hroom
  exact hroom h hmoved

theorem CounterFits.bids (h : b.CounterFits u) (hbuy : u.side ≠ .sell) (hq : u.quantity.toInt ≠ 0)
    (hmoved : (b.addUpdate u).numOfBids ≠ b.numOfBids) : b.numOfBids.toInt + 1 < 2 ^ 31 := by
  have hroom := hasRoom_tracedAddBid (b.latchExponents u) u.price.toInt u.quantity.toInt
  have htraced : b.tracedUpdate u =
      (b.latchExponents u).tracedAddBid u.price.toInt u.quantity.toInt := by
    unfold tracedUpdate
    dsimp only
    rw [if_neg hbuy, if_neg hq]
  unfold CounterFits at h
  rw [← value_tracedUpdate, htraced] at hmoved
  rw [htraced] at h
  rw [latchExponents_numOfBids] at hroom
  exact hroom h hmoved

end Fits

end HftSystem.OrderBook
