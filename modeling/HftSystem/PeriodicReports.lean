import Mathlib.Algebra.Order.Ring.Nat
import Mathlib.Data.List.Induction
import Mathlib.Tactic.Common

/-!
A loop that counts its events in 64 bits and reports whenever the count is a multiple of an
interval. The reports of a run are those of the states after the first interval, the first two
intervals, and so on.
-/
namespace HftSystem

/-- A state with the count of the events it has seen and what has been printed. -/
structure Counted (σ ρ : Type) where
  state : σ
  count : UInt64 := 0
  printed : List ρ := []

namespace Counted

variable {σ ρ ε : Type} (step : σ → ε → σ) (report : UInt64 → σ → ρ) (interval : UInt64)

/-- `if (++count % interval == 0) report();` behind a step. -/
def event (c : Counted σ ρ) (e : ε) : Counted σ ρ :=
  let state := step c.state e
  let count := c.count + 1
  { state, count
    printed := if count % interval = 0 then c.printed ++ [report count state] else c.printed }

/-- The reports that are due after some events. -/
def due (s : σ) (es : List ε) : List ρ :=
  (List.range (es.length / interval.toNat)).map (fun k =>
    report (UInt64.ofNat ((k + 1) * interval.toNat))
      ((es.take ((k + 1) * interval.toNat)).foldl step s))

theorem mod_eq_zero_iff {n : ℕ} (hn : n < 2 ^ 64) :
    UInt64.ofNat n % interval = 0 ↔ interval.toNat ∣ n := by
  rw [← UInt64.toNat_inj, UInt64.toNat_mod, UInt64.toNat_ofNat_of_lt' hn]
  exact Nat.dvd_iff_mod_eq_zero.symm

/-- The reports of fewer events stay what they are. -/
theorem due_concat (s : σ) (es : List ε) (e : ε) :
    due step report interval s (es ++ [e]) = due step report interval s es ++
      if interval.toNat ∣ es.length + 1 then
        [report (UInt64.ofNat (es.length + 1)) ((es ++ [e]).foldl step s)]
      else [] := by
  have hold : ∀ k ∈ List.range (es.length / interval.toNat),
      report (UInt64.ofNat ((k + 1) * interval.toNat))
        (((es ++ [e]).take ((k + 1) * interval.toNat)).foldl step s) =
      report (UInt64.ofNat ((k + 1) * interval.toNat))
        ((es.take ((k + 1) * interval.toNat)).foldl step s) := by
    intro k hk
    have hle : (k + 1) * interval.toNat ≤ es.length :=
      (Nat.mul_le_mul_right _ (List.mem_range.mp hk)).trans (Nat.div_mul_le_self _ _)
    rw [List.take_append_of_le_length hle]
  unfold due
  rw [List.length_append, List.length_singleton, Nat.succ_div]
  split
  · rename_i hdvd
    have hlast : (es.length / interval.toNat + 1) * interval.toNat = es.length + 1 := by
      rw [← Nat.succ_div_of_dvd hdvd]
      exact Nat.div_mul_cancel hdvd
    rw [List.range_succ, List.map_append, List.map_singleton, List.map_congr_left hold, hlast,
      List.take_of_length_le (by simp)]
  · rw [Nat.add_zero, List.append_nil, List.map_congr_left hold]

/-- A run goes through the states of the plain steps, counts its events and prints what is due. -/
theorem foldl_event (s : σ) {es : List ε} (hlt : es.length < 2 ^ 64) :
    es.foldl (event step report interval) { state := s } =
      { state := es.foldl step s
        count := UInt64.ofNat es.length
        printed := due step report interval s es } := by
  induction es using List.reverseRecOn with
  | nil => simp [due]
  | append_singleton es e ih =>
    rw [List.length_append, List.length_singleton] at hlt
    rw [List.foldl_append, ih (by omega), List.foldl_cons, List.foldl_nil, event, due_concat]
    dsimp only
    have hcount : UInt64.ofNat es.length + 1 = UInt64.ofNat (es.length + 1) := by
      rw [UInt64.ofNat_add]
      rfl
    rw [hcount, List.foldl_append, List.foldl_cons, List.foldl_nil, List.length_append,
      List.length_singleton]
    by_cases hdvd : interval.toNat ∣ es.length + 1
    · rw [if_pos hdvd, if_pos ((mod_eq_zero_iff interval hlt).mpr hdvd)]
    · rw [if_neg hdvd, if_neg (mt (mod_eq_zero_iff interval hlt).mp hdvd), List.append_nil]

/-- The k-th report is that of the first k + 1 intervals. -/
theorem due_getElem? {s : σ} {es : List ε} {k : ℕ} {r : ρ}
    (hr : (due step report interval s es)[k]? = some r) :
    (k + 1) * interval.toNat ≤ es.length ∧
      r = report (UInt64.ofNat ((k + 1) * interval.toNat))
        ((es.take ((k + 1) * interval.toNat)).foldl step s) := by
  unfold due at hr
  rw [List.getElem?_map, Option.map_eq_some_iff] at hr
  obtain ⟨j, hj, rfl⟩ := hr
  obtain ⟨hlt, rfl⟩ := List.getElem?_eq_some_iff.mp hj
  rw [List.getElem_range]
  rw [List.length_range] at hlt
  exact ⟨(Nat.mul_le_mul_right _ hlt).trans (Nat.div_mul_le_self _ _), rfl⟩

theorem length_due (s : σ) (es : List ε) :
    (due step report interval s es).length = es.length / interval.toNat := by
  rw [due, List.length_map, List.length_range]

end Counted

end HftSystem
