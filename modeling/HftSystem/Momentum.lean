import HftSystem.Strategies

/-!
The signals of `MicroMomentum` over whole runs. The counters always describe the
calls since the last multiple of the window, so each signal is a closed form in the
updates of its own window, and the clamp has nothing to do.
-/
namespace HftSystem.MicroMomentum

open TwosComplement

/-- The counters after the increments of a call, before the reset. -/
def counted (m : MicroMomentum) (u : MarketUpdate) : MicroMomentum where
  aggBids := if u.side = .buy then m.aggBids + 1 else m.aggBids
  aggAsks := if u.side = .buy then m.aggAsks else m.aggAsks + 1
  windowCount := m.windowCount + 1

/-- The value that is clamped. -/
def quotient (m : MicroMomentum) : ℤ :=
  (((m.aggBids.toNat : ℤ) - m.aggAsks.toNat) * 1000).tdiv kMomentumWindow.toNat

theorem onMarketData_counted (m : MicroMomentum) (u : MarketUpdate) :
    m.onMarketData u =
      (if (m.counted u).windowCount ≥ kMomentumWindow then {} else m.counted u,
        truncate 32 (max (-1000) (min (m.counted u).quotient 1000))) := by
  unfold onMarketData
  dsimp only
  split
  · rename_i hreset
    rw [if_pos (show (m.counted u).windowCount ≥ kMomentumWindow from hreset)]
    rfl
  · rename_i hreset
    rw [if_neg (show ¬ (m.counted u).windowCount ≥ kMomentumWindow from hreset)]
    rfl

/-! ### Runs -/

/-- The state after a run of calls. -/
def after (us : List MarketUpdate) : MicroMomentum :=
  us.foldl (fun m u => (m.onMarketData u).1) {}

/-- The signals of a run of calls. -/
def signals : MicroMomentum → List MarketUpdate → List ℤ
  | _, [] => []
  | m, u :: us => (m.onMarketData u).2 :: signals (m.onMarketData u).1 us

def buys (us : List MarketUpdate) : ℕ := us.countP (fun u => u.side = .buy)

def others (us : List MarketUpdate) : ℕ := us.countP (fun u => u.side ≠ .buy)

/-- The updates of the calls 20 * ((t - 1) / 20) + 1 to t. -/
def window (us : List MarketUpdate) (t : ℕ) : List MarketUpdate :=
  (us.take t).drop (20 * ((t - 1) / 20))

/-- The counters describe the updates of the current window. -/
structure Describes (m : MicroMomentum) (us : List MarketUpdate) : Prop where
  bids : m.aggBids.toNat = buys us
  asks : m.aggAsks.toNat = others us
  count : m.windowCount.toNat = us.length

theorem buys_add_others (us : List MarketUpdate) : buys us + others us = us.length := by
  have h : us.length = _ :=
    List.length_eq_countP_add_countP (fun u : MarketUpdate => decide (u.side = .buy))
  rw [h]
  simp [buys, others]

theorem buys_concat (us : List MarketUpdate) (u : MarketUpdate) :
    buys (us ++ [u]) = buys us + if u.side = .buy then 1 else 0 := by
  simp [buys, List.countP_append, List.countP_singleton]

theorem others_concat (us : List MarketUpdate) (u : MarketUpdate) :
    others (us ++ [u]) = others us + if u.side = .buy then 0 else 1 := by
  by_cases hside : u.side = .buy
  · simp [others, List.countP_append, hside]
  · simp [others, List.countP_append, hside]

variable {m : MicroMomentum} {us : List MarketUpdate}

theorem toNat_succ {x : UInt32} (h : x.toNat < 20) : (x + 1).toNat = x.toNat + 1 := by
  have hadd := UInt32.toNat_add x 1
  have hone : (1 : UInt32).toNat = 1 := rfl
  omega

theorem Describes.counted (h : Describes m us) (hlt : us.length < 20) (u : MarketUpdate) :
    Describes (m.counted u) (us ++ [u]) := by
  have hsum := buys_add_others us
  obtain ⟨hbids, hasks, hcount⟩ := h
  have hbidsSucc := toNat_succ (show m.aggBids.toNat < 20 by omega)
  have hasksSucc := toNat_succ (show m.aggAsks.toNat < 20 by omega)
  have hcountSucc := toNat_succ (show m.windowCount.toNat < 20 by omega)
  refine ⟨?_, ?_, ?_⟩
  · rw [buys_concat, ← hbids, MicroMomentum.counted]
    by_cases hside : u.side = .buy
    · simpa only [if_pos hside] using hbidsSucc
    · simp only [if_neg hside, Nat.add_zero]
  · rw [others_concat, ← hasks, MicroMomentum.counted]
    by_cases hside : u.side = .buy
    · simp only [if_pos hside, Nat.add_zero]
    · simpa only [if_neg hside] using hasksSucc
  · rw [List.length_append, List.length_singleton, ← hcount]
    exact hcountSucc

/-- Within a window the quotient is exact and needs no clamp. -/
theorem Describes.quotient_eq (h : Describes m us) :
    m.quotient = 50 * ((buys us : ℤ) - others us) := by
  have hwindow : ((kMomentumWindow.toNat : ℕ) : ℤ) = 20 := rfl
  rw [quotient, h.bids, h.asks, hwindow]
  have hproduct : ((buys us : ℤ) - others us) * 1000 = 50 * ((buys us : ℤ) - others us) * 20 := by
    omega
  rw [hproduct, Int.mul_tdiv_cancel _ (by decide)]

theorem quotient_bounds (hle : us.length ≤ 20) :
    -1000 ≤ 50 * ((buys us : ℤ) - others us) ∧ 50 * ((buys us : ℤ) - others us) ≤ 1000 := by
  have hsum := buys_add_others us
  constructor
  · omega
  · omega

/-- A call in the middle of a window, or the one that ends it. -/
theorem Describes.onMarketData (h : Describes m us) (hlt : us.length < 20) (u : MarketUpdate) :
    (m.onMarketData u).2 = 50 * ((buys (us ++ [u]) : ℤ) - others (us ++ [u])) ∧
      Describes (m.onMarketData u).1 (if us.length + 1 = 20 then [] else us ++ [u]) := by
  have hcounted := h.counted hlt u
  have hlength : (us ++ [u]).length = us.length + 1 := by simp
  obtain ⟨hlow, hhigh⟩ := quotient_bounds (show (us ++ [u]).length ≤ 20 by omega)
  rw [onMarketData_counted, hcounted.quotient_eq]
  constructor
  · rw [min_eq_left hhigh, max_eq_right hlow]
    exact truncate_of_fits (by decide) ⟨le_trans (by decide) hlow, lt_of_le_of_lt hhigh (by decide)⟩
  · have hcount := hcounted.count
    have hreset : (m.counted u).windowCount ≥ kMomentumWindow ↔ us.length + 1 = 20 := by
      rw [ge_iff_le, UInt32.le_iff_toNat_le, hcount, hlength]
      change 20 ≤ _ ↔ _
      omega
    by_cases hend : us.length + 1 = 20
    · rw [if_pos (hreset.mpr hend), if_pos hend]
      exact ⟨rfl, rfl, rfl⟩
    · rw [if_neg (mt hreset.mp hend), if_neg hend]
      exact hcounted

/-! ### The closed form -/

theorem after_concat (us : List MarketUpdate) (u : MarketUpdate) :
    after (us ++ [u]) = ((after us).onMarketData u).1 := by
  simp [after]

/-- The updates of the window that is not complete yet. -/
def current (us : List MarketUpdate) : List MarketUpdate := us.drop (20 * (us.length / 20))

theorem length_current (us : List MarketUpdate) : (current us).length = us.length % 20 := by
  rw [current, List.length_drop]
  omega

theorem current_concat (us : List MarketUpdate) (u : MarketUpdate) :
    current (us ++ [u]) =
      if (current us).length + 1 = 20 then [] else current us ++ [u] := by
  have hlength := length_current us
  split
  · apply List.drop_eq_nil_of_le
    simp only [List.length_append, List.length_singleton]
    omega
  · have hsame : 20 * ((us ++ [u]).length / 20) = 20 * (us.length / 20) := by
      simp only [List.length_append, List.length_singleton]
      omega
    rw [current, hsame, List.drop_append_of_le_length (by omega)]
    rfl

theorem after_describes (us : List MarketUpdate) : Describes (after us) (current us) := by
  induction us using List.reverseRecOn with
  | nil => exact ⟨rfl, rfl, rfl⟩
  | append_singleton us u ih =>
    have hlt : (current us).length < 20 := by
      rw [length_current]
      omega
    rw [after_concat, current_concat]
    exact (ih.onMarketData hlt u).2

theorem signals_getElem? (m : MicroMomentum) (us : List MarketUpdate) (n : ℕ) :
    (signals m us)[n]? =
      us[n]?.map (fun u =>
        (((us.take n).foldl (fun m u => (m.onMarketData u).1) m).onMarketData u).2) := by
  induction us generalizing m n with
  | nil => simp [signals]
  | cons u us ih =>
    cases n with
    | zero => simp [signals]
    | succ n => simpa [signals] using ih (m.onMarketData u).1 n

theorem window_succ {us : List MarketUpdate} {n : ℕ} {u : MarketUpdate} (hu : us[n]? = some u) :
    window us (n + 1) = current (us.take n) ++ [u] := by
  have hlt : n < us.length := (List.getElem?_eq_some_iff.mp hu).1
  have hlength : (us.take n).length = n := by
    rw [List.length_take]
    omega
  have htake : us.take (n + 1) = us.take n ++ [u] := by
    rw [List.take_add_one, hu]
    rfl
  rw [window, htake, current, hlength, Nat.add_sub_cancel,
    List.drop_append_of_le_length (by omega)]

/-- Before each call the counters describe the earlier calls of the window. -/
theorem after_take_describes (us : List MarketUpdate) (n : ℕ) :
    Describes (after (us.take n)) (current (us.take n)) ∧ (current (us.take n)).length < 20 := by
  refine ⟨after_describes _, ?_⟩
  rw [length_current]
  omega

/-- Each signal counts the calls of its own window, which keeps it within the bounds of the
clamp. Between calls the counters add up and the window is not complete. -/
theorem signals_closed_form (us : List MarketUpdate) :
    (∀ t, 1 ≤ t → t ≤ us.length →
      let signal : ℤ := 50 * ((buys (window us t) : ℤ) - others (window us t))
      (signals {} us)[t - 1]? = some signal ∧
        (∀ u, us[t - 1]? = some u → ((after (us.take (t - 1))).counted u).quotient = signal) ∧
        -1000 ≤ signal ∧ signal ≤ 1000) ∧
    ∀ n, (after (us.take n)).aggBids.toNat + (after (us.take n)).aggAsks.toNat =
        (after (us.take n)).windowCount.toNat ∧
      (after (us.take n)).windowCount < kMomentumWindow := by
  constructor
  · intro t hfirst hlast
    obtain ⟨n, rfl⟩ : ∃ n, t = n + 1 := ⟨t - 1, by omega⟩
    have hu : us[n]? = some us[n] := List.getElem?_eq_getElem (by omega)
    obtain ⟨hdescribes, hlt⟩ := after_take_describes us n
    rw [Nat.add_sub_cancel, window_succ hu]
    refine ⟨?_, ?_, quotient_bounds ?_⟩
    · rw [signals_getElem?, hu, Option.map_some]
      exact congrArg some (hdescribes.onMarketData hlt _).1
    · intro u hu'
      rw [hu, Option.some.injEq] at hu'
      rw [hu']
      exact (hdescribes.counted hlt u).quotient_eq
    · rw [List.length_append, List.length_singleton]
      omega
  · intro n
    obtain ⟨hdescribes, hlt⟩ := after_take_describes us n
    have hsum := buys_add_others (current (us.take n))
    have hcount := hdescribes.count
    constructor
    · rw [hdescribes.bids, hdescribes.asks, hcount, hsum]
    · rw [UInt32.lt_iff_toNat_lt, hcount]
      exact hlt

/-- The first call of the second window starts from zero again. -/
theorem signals_closed_form_second_window :
    (signals {} (List.replicate 21 (MarketUpdate.new 1 .buy 100 1 0 0 0)))[20]? = some 50 :=
  ((signals_closed_form _).1 21 (by decide) (by decide)).1

end HftSystem.MicroMomentum
