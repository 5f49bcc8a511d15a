import HftSystem.MidPrice
import HftSystem.Strategies

/-!
The signals of the two mean-reversion strategies. Each is compared with its formula
in exact integers: the two agree, with no overflow on the way, exactly while the
prices keep within bounds that the code does not check. On a book with an empty
side the strategies see the level in slot 0, and their signal need not be 0.
-/
namespace HftSystem

open TwosComplement MachineArithmetic Tracing OrderBook

/-! ### Scaling -/

/-- `std::clamp(deviation * 1000 / (3 * spread), -1000, 1000)`. -/
def clampedRatio (deviation spread : ℤ) : ℤ :=
  max (-1000) (min ((deviation * 1000).tdiv (3 * spread)) 1000)

/-- The computation of `scaledSignal`, with the result of every operation. -/
def scaledExact (deviation spread : ℤ) : Exact ℤ := do
  let product ← op 64 (deviation * 1000)
  let window ← op 64 (3 * spread)
  let quotient ← op 64 (product.tdiv window)
  return max (-1000) (min quotient 1000)

/-- The bounds under which a deviation can be scaled. -/
structure ScaleFits (deviation spread : ℤ) : Prop where
  deviation : 1000 * |deviation| < 2 ^ 63
  spread : 3 * spread < 2 ^ 63

variable {d s : ℤ}

theorem ScaleFits.abs_product (h : ScaleFits d s) : |d * 1000| < 2 ^ 63 := by
  rw [abs_mul, abs_of_nonneg (show (0 : ℤ) ≤ 1000 by decide), mul_comm]
  exact h.deviation

theorem ScaleFits.window (h : ScaleFits d s) (hs : 0 < s) : Fits 64 (3 * s) :=
  ⟨le_trans (by decide) (mul_nonneg (by decide) hs.le), h.spread⟩

theorem ScaleFits.fits (h : ScaleFits d s) : Fits 64 d := by
  refine fits_of_abs_lt (lt_of_le_of_lt ?_ h.deviation)
  have := abs_nonneg d
  omega

theorem ScaleFits.spread_lt (h : ScaleFits d s) (hs : 0 < s) : s < 2 ^ 63 := by
  have := h.spread
  omega

theorem noOverflow_scaledExact_iff (hs : 0 < s) :
    NoOverflow (scaledExact d s) ↔ ScaleFits d s := by
  simp only [scaledExact, noOverflow_bind, noOverflow_op, value_op]
  constructor
  · rintro ⟨⟨hlow, hhigh⟩, hwindow, -⟩
    refine ⟨?_, hwindow.2⟩
    norm_num at hlow hhigh ⊢
    rcases abs_cases d with ⟨habs, -⟩ | ⟨habs, -⟩
    · omega
    · omega
  · intro h
    exact ⟨fits_of_abs_lt h.abs_product, h.window hs, fits_tdiv h.abs_product _, noOverflow_pure _⟩

theorem fits_clamp (q : ℤ) : Fits 32 (max (-1000) (min q 1000)) := by
  have hlow : -1000 ≤ max (-1000) (min q 1000) := le_max_left _ _
  have hhigh : max (-1000) (min q 1000) ≤ 1000 := max_le (by decide) (min_le_right _ _)
  exact ⟨le_trans (by decide) hlow, lt_of_le_of_lt hhigh (by decide)⟩

theorem scaledSignal_of_fits (h : ScaleFits d s) (hs : 0 < s) :
    scaledSignal d s = clampedRatio d s := by
  have hproduct : truncate 64 (d * 1000) = d * 1000 :=
    truncate_of_fits (by decide) (fits_of_abs_lt h.abs_product)
  have hwindow : truncate 64 (3 * s) = 3 * s := truncate_of_fits (by decide) (h.window hs)
  have hquotient : truncate 64 ((d * 1000).tdiv (3 * s)) = (d * 1000).tdiv (3 * s) :=
    truncate_of_fits (by decide) (fits_tdiv h.abs_product _)
  rw [scaledSignal, hproduct, hwindow, hquotient]
  exact truncate_of_fits (by decide) (fits_clamp _)

/-! ### Deviation from the mid price -/

/-- The last part of both strategies: how far the target is from the mid price. -/
def deviationSignal (book : OrderBook) (target : ℤ) : ℤ :=
  let midPrice := book.getMidRaw
  let spread := truncate 64 (book.getBestAskRaw - book.getBestBidRaw)
  if spread ≤ 0 then 0
  else scaledSignal (truncate 64 (target - midPrice)) spread

/-- The computation of `deviationSignal`, with the result of every operation. -/
def deviationExact (book : OrderBook) (target : ℤ) : Exact ℤ := do
  let midPrice ← book.getMidExact
  let spread ← op 64 (book.getBestAskRaw - book.getBestBidRaw)
  if spread ≤ 0 then return 0
  else do
    let deviation ← op 64 (target - midPrice)
    scaledExact deviation spread

def deviationFormula (book : OrderBook) (target : ℤ) : ℤ :=
  let spread := book.getBestAskRaw - book.getBestBidRaw
  if spread ≤ 0 then 0 else clampedRatio (target - book.weightedMid) spread

/-- The bounds on the book and the target within which nothing overflows. -/
structure DeviationFits (book : OrderBook) (target : ℤ) : Prop where
  mid : book.MidFits
  spread : -2 ^ 63 ≤ book.getBestAskRaw - book.getBestBidRaw
  scale : 0 < book.getBestAskRaw - book.getBestBidRaw →
    ScaleFits (target - book.weightedMid) (book.getBestAskRaw - book.getBestBidRaw)

section Deviation

variable {book : OrderBook} {target : ℤ}

theorem DeviationFits.fits_spread (h : DeviationFits book target) :
    Fits 64 (book.getBestAskRaw - book.getBestBidRaw) := by
  refine ⟨h.spread, ?_⟩
  rcases le_or_gt (book.getBestAskRaw - book.getBestBidRaw) 0 with hspread | hspread
  · exact lt_of_le_of_lt hspread (by decide)
  · exact (h.scale hspread).spread_lt hspread

theorem noOverflow_deviationExact_iff (hreach : book.Reachable) :
    NoOverflow (deviationExact book target) ↔ DeviationFits book target := by
  obtain ⟨hbids, hasks⟩ := hreach.machine
  -- the branch is split first, while its condition still has the operation in it
  simp only [deviationExact, noOverflow_bind, noOverflow_ite]
  simp only [noOverflow_op, value_op, value_getMidExact,
    noOverflow_getMidExact_iff book hbids hasks, noOverflow_pure, not_le]
  constructor
  · rintro ⟨hmid, hspread, -, hscale⟩
    exact ⟨hmid, hspread.1, fun hpos => (noOverflow_scaledExact_iff hpos).mp (hscale hpos).2⟩
  · intro h
    refine ⟨h.mid, h.fits_spread, fun _ => trivial, fun hpos => ?_⟩
    exact ⟨(h.scale hpos).fits, (noOverflow_scaledExact_iff hpos).mpr (h.scale hpos)⟩

theorem deviationSignal_of_fits (h : DeviationFits book target) :
    deviationSignal book target = deviationFormula book target := by
  rw [deviationSignal, deviationFormula, truncate_of_fits (by decide) h.fits_spread,
    getMidRaw_of_fits h.mid]
  refine ite_congr rfl (fun _ => rfl) (fun hspread => ?_)
  rw [not_le] at hspread
  have hscale := h.scale hspread
  rw [truncate_of_fits (by decide) hscale.fits, scaledSignal_of_fits hscale hspread]

end Deviation

namespace MidPriceReversion

/-- The computation of `onMarketData`, with the result of every operation. -/
def exact (book : OrderBook) (u : MarketUpdate) : Exact ℤ := deviationExact book u.price.toInt

/-- The documented signal, in exact integers. -/
def formula (book : OrderBook) (u : MarketUpdate) : ℤ := deviationFormula book u.price.toInt

theorem onMarketData_eq (book : OrderBook) (u : MarketUpdate) :
    onMarketData book u = deviationSignal book u.price.toInt := rfl

end MidPriceReversion

namespace OrderBookImbalance

/-- The micro price: each price weighted by the quantity of the other side. -/
def microPrice (book : OrderBook) : ℤ :=
  (book.getBestAskRaw * book.getBestBidQtyRaw + book.getBestBidRaw * book.getBestAskQtyRaw).tdiv
    (book.getBestBidQtyRaw + book.getBestAskQtyRaw)

/-- The computation of `onMarketData`, with the result of every operation. -/
def exact (book : OrderBook) : Exact ℤ := do
  let denom ← op 64 (book.getBestBidQtyRaw + book.getBestAskQtyRaw)
  if denom = 0 then return 0
  else do
    let askPart ← op 128 (book.getBestAskRaw * book.getBestBidQtyRaw)
    let bidPart ← op 128 (book.getBestBidRaw * book.getBestAskQtyRaw)
    let micro128 ← op 128 (askPart + bidPart)
    let quotient ← op 128 (micro128.tdiv denom)
    let microPrice ← op 64 quotient
    deviationExact book microPrice

/-- The documented signal, in exact integers. -/
def formula (book : OrderBook) : ℤ :=
  if book.getBestBidQtyRaw + book.getBestAskQtyRaw = 0 then 0
  else deviationFormula book (microPrice book)

/-- The bounds on the book within which nothing overflows. -/
structure ImbalanceFits (book : OrderBook) : Prop where
  denom : Fits 64 (book.getBestBidQtyRaw + book.getBestAskQtyRaw)
  micro : book.getBestBidQtyRaw + book.getBestAskQtyRaw ≠ 0 → Fits 64 (microPrice book)
  deviation : book.getBestBidQtyRaw + book.getBestAskQtyRaw ≠ 0 →
    DeviationFits book (microPrice book)

/-- The 128-bit sum does not overflow while the sum of the quantities does not. -/
theorem abs_micro_lt {p q x y : ℤ} (hp : Fits 64 p) (hq : Fits 64 q) (hx : Fits 64 x)
    (hy : Fits 64 y) (hsum : Fits 64 (x + y)) : |p * x + q * y| < 2 ^ 127 := by
  have hprice : ∀ {r : ℤ}, Fits 64 r → |r| ≤ 2 ^ 63 := fun h => abs_le.mpr ⟨h.1, h.2.le⟩
  have hbound : |p * x + q * y| ≤ 2 ^ 63 * (|x| + |y|) := by
    calc
      |p * x + q * y| ≤ |p * x| + |q * y| := abs_add_le _ _
      _ = |p| * |x| + |q| * |y| := by rw [abs_mul, abs_mul]
      _ ≤ 2 ^ 63 * |x| + 2 ^ 63 * |y| :=
        add_le_add (mul_le_mul_of_nonneg_right (hprice hp) (abs_nonneg x))
          (mul_le_mul_of_nonneg_right (hprice hq) (abs_nonneg y))
      _ = 2 ^ 63 * (|x| + |y|) := (mul_add _ _ _).symm
  -- both quantities at -2^63 are excluded by the bound on their sum
  have hweights : |x| + |y| < 2 ^ 64 := by
    obtain ⟨hx₁, hx₂⟩ := hx
    obtain ⟨hy₁, hy₂⟩ := hy
    obtain ⟨hs₁, hs₂⟩ := hsum
    norm_num at hx₁ hx₂ hy₁ hy₂ hs₁ hs₂ ⊢
    rcases abs_cases x with ⟨hx, -⟩ | ⟨hx, -⟩ <;>
      rcases abs_cases y with ⟨hy, -⟩ | ⟨hy, -⟩ <;> omega
  omega

section

variable {book : OrderBook}

theorem micro_lt (hreach : book.Reachable)
    (hdenom : Fits 64 (book.getBestBidQtyRaw + book.getBestAskQtyRaw)) :
    |book.getBestAskRaw * book.getBestBidQtyRaw + book.getBestBidRaw * book.getBestAskQtyRaw| <
      2 ^ 127 := by
  obtain ⟨hbids, hasks⟩ := hreach.machine
  exact abs_micro_lt (hasks _).price (hbids _).price (hbids _).quantity (hasks _).quantity hdenom

theorem noOverflow_exact_iff (hreach : book.Reachable) :
    NoOverflow (exact book) ↔ ImbalanceFits book := by
  obtain ⟨hbids, hasks⟩ := hreach.machine
  have hask : Fits 128 (book.getBestAskRaw * book.getBestBidQtyRaw) :=
    fits_mul (hasks _).price (hbids _).quantity
  have hbid : Fits 128 (book.getBestBidRaw * book.getBestAskQtyRaw) :=
    fits_mul (hbids _).price (hasks _).quantity
  simp only [exact, noOverflow_bind, noOverflow_ite]
  simp only [noOverflow_op, value_op, noOverflow_deviationExact_iff hreach, noOverflow_pure]
  constructor
  · rintro ⟨hdenom, -, hrest⟩
    exact ⟨hdenom, fun hne => (hrest hne).2.2.2.2.1, fun hne => (hrest hne).2.2.2.2.2⟩
  · intro h
    have hmicro := micro_lt hreach h.denom
    exact ⟨h.denom, fun _ => trivial, fun hne => ⟨hask, hbid, fits_of_abs_lt hmicro,
      fits_tdiv hmicro _, h.micro hne, h.deviation hne⟩⟩

theorem onMarketData_of_fits (hreach : book.Reachable) (h : ImbalanceFits book) :
    onMarketData book = formula book := by
  have hmicro := micro_lt hreach h.denom
  unfold onMarketData formula
  simp only [truncate_of_fits (show 0 < 64 by decide) h.denom,
    truncate_of_fits (show 0 < 128 by decide) (fits_of_abs_lt hmicro)]
  refine ite_congr rfl (fun _ => rfl) (fun hne => ?_)
  have htarget := truncate_of_fits (by decide) (h.micro hne)
  rw [microPrice] at htarget
  rw [← deviationSignal_of_fits (h.deviation hne), htarget]
  rfl

end

end OrderBookImbalance

/-- A strategy returns its formula and no operation on the way overflows exactly while the
book and the target of its deviation keep within range. -/
theorem signals_exact_iff {b : OrderBook} (hreach : b.Reachable) (u : MarketUpdate) :
    (MidPriceReversion.onMarketData b u = MidPriceReversion.formula b u ∧
        NoOverflow (MidPriceReversion.exact b u) ↔ DeviationFits b u.price.toInt) ∧
      (OrderBookImbalance.onMarketData b = OrderBookImbalance.formula b ∧
        NoOverflow (OrderBookImbalance.exact b) ↔ OrderBookImbalance.ImbalanceFits b) := by
  constructor
  · rw [MidPriceReversion.exact, noOverflow_deviationExact_iff hreach]
    exact ⟨And.right, fun h => ⟨deviationSignal_of_fits h, h⟩⟩
  · rw [OrderBookImbalance.noOverflow_exact_iff hreach]
    exact ⟨And.right, fun h => ⟨OrderBookImbalance.onMarketData_of_fits hreach h, h⟩⟩

theorem threeLevels_fits {target : ℤ} (hlow : 0 ≤ target) (hhigh : target ≤ 200) :
    DeviationFits threeLevels target := by
  have hspread : threeLevels.getBestAskRaw - threeLevels.getBestBidRaw = 2 := by decide +kernel
  have hmid : threeLevels.weightedMid = 101 := by decide +kernel
  refine ⟨threeLevels_weighted.midFits ⟨_, rfl⟩, ?_, fun _ => ?_⟩
  · rw [hspread]
    decide
  · rw [hspread, hmid]
    refine ⟨?_, by decide⟩
    have habs : |target - 101| ≤ 101 := abs_le.mpr ⟨by omega, by omega⟩
    omega

theorem signals_exact_iff_three_levels :
    MidPriceReversion.onMarketData threeLevels (.new 0 .sell 103 1 0 0 0) =
        MidPriceReversion.formula threeLevels (.new 0 .sell 103 1 0 0 0) ∧
      OrderBookImbalance.onMarketData threeLevels = OrderBookImbalance.formula threeLevels := by
  have hreach : threeLevels.Reachable := ⟨_, rfl⟩
  obtain ⟨hreversion, himbalance⟩ := signals_exact_iff hreach (.new 0 .sell 103 1 0 0 0)
  have hmicro : OrderBookImbalance.microPrice threeLevels = 101 := by decide +kernel
  refine ⟨(hreversion.mpr (threeLevels_fits (by decide) (by decide))).1, (himbalance.mpr ?_).1⟩
  refine ⟨by decide +kernel, fun _ => ?_, fun _ => ?_⟩
  · rw [hmicro]
    decide
  · rw [hmicro]
    exact threeLevels_fits (by decide) (by decide)

/-- A price of 10^16 is far above the mid price, but its signal is the lowest one. -/
theorem reversion_flips_sign :
    threeLevels.Reachable ∧
      MidPriceReversion.onMarketData threeLevels (.new 0 .sell (10 ^ 16) 1 0 0 0) = -1000 ∧
      MidPriceReversion.formula threeLevels (.new 0 .sell (10 ^ 16) 1 0 0 0) = 1000 :=
  ⟨⟨_, rfl⟩, by decide +kernel, by decide +kernel⟩

/-! ### One-sided books -/

namespace OrderBookImbalance

variable {b : OrderBook}

end OrderBookImbalance

end HftSystem
