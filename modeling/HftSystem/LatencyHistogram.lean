import Mathlib.Data.Fintype.Basic
import Mathlib.Data.List.FinRange
import Mathlib.Data.Nat.Log
import Mathlib.Data.Rat.Floor
import HftSystem.OrderStatistics

/-!
The log2 histogram of cycle counts. The scan of `report` stops at the bucket of an
order statistic of the samples recorded since the last reset.

Thresholds and times are computed in exact arithmetic, where the source has doubles.
-/
namespace HftSystem

open OrderStatistics

structure LatencyHistogram where
  name : List UInt8
  buckets : Fin 64 → UInt64
  totalSamples : UInt64

namespace LatencyHistogram

/-- The constructor of the source: the name is cut to 31 bytes. -/
def new (n : List UInt8) : LatencyHistogram :=
  ⟨(n.takeWhile (· ≠ 0)).take 31, fun _ => 0, 0⟩

/-- `(cycles == 0) ? 0 : (63 - __builtin_clzll(cycles))`. -/
def bucket (cycles : UInt64) : Fin 64 :=
  if cycles = 0 then ⟨0, by decide⟩ else ⟨63 - cycles.toBitVec.clz.toNat, by omega⟩

def record (h : LatencyHistogram) (cycles : UInt64) : LatencyHistogram :=
  { h with
    buckets := Function.update h.buckets (bucket cycles) (h.buckets (bucket cycles) + 1)
    totalSamples := h.totalSamples + 1 }

def reset (h : LatencyHistogram) : LatencyHistogram :=
  { h with buckets := fun _ => 0, totalSamples := 0 }

def threshold (h : LatencyHistogram) (pct : ℚ) : UInt64 :=
  let threshold := UInt64.ofNat ⌊(h.totalSamples.toNat : ℚ) * pct / 100 + 1 / 2⌋₊
  if threshold = 0 then 1 else threshold

/-- The loop of `percentile_ns`: the bucket at which it returns. -/
def scan (buckets : Fin 64 → UInt64) (threshold acc : UInt64) : List (Fin 64) → Option (Fin 64)
  | [] => none
  | b :: bs =>
    if acc + buckets b ≥ threshold then some b
    else scan buckets threshold (acc + buckets b) bs

def selected (h : LatencyHistogram) (pct : ℚ) : Option (Fin 64) :=
  scan h.buckets (h.threshold pct) 0 (List.finRange 64)

def percentileNs (h : LatencyHistogram) (nsPerCycle pct : ℚ) : ℚ :=
  match h.selected pct with
  | some b => 2 ^ b.val * nsPerCycle
  | none => 0

/-- What `report` prints. -/
inductive Report
  | noSamples (name : List UInt8)
  | percentiles (name : List UInt8) (p50 p99 p999 : ℚ) (samples : UInt64)

def report (h : LatencyHistogram) (nsPerCycle : ℚ) : Report :=
  if h.totalSamples = 0 then .noSamples h.name
  else .percentiles h.name (h.percentileNs nsPerCycle 50) (h.percentileNs nsPerCycle 99)
    (h.percentileNs nsPerCycle (999 / 10)) h.totalSamples

/-! ### Buckets -/

/-- Bucket b holds the samples from 2 ^ b to 2 ^ (b + 1) - 1, and bucket 0 also zero. -/
theorem bucket_eq_log (cycles : UInt64) : (bucket cycles).val = Nat.log 2 cycles.toNat := by
  by_cases hzero : cycles = 0
  · rw [bucket, if_pos hzero, hzero]
    rfl
  · have hne : cycles.toBitVec ≠ 0#64 := fun h => hzero (UInt64.toBitVec_inj.mp h)
    have hlow := BitVec.two_pow_sub_clz_le_toNat_of_ne_zero (by decide) hne
    have hhigh := BitVec.toNat_lt_two_pow_sub_clz (x := cycles.toBitVec)
    have hclz : cycles.toBitVec.clz.toNat < 64 := BitVec.clz_lt_iff_ne_zero.mpr hne
    rw [bucket, if_neg hzero]
    symm
    apply Nat.log_eq_of_pow_le_of_lt_pow
    · exact hlow
    · have hsucc : 63 - cycles.toBitVec.clz.toNat + 1 = 64 - cycles.toBitVec.clz.toNat := by omega
      rw [hsucc]
      exact hhigh

/-! ### Runs -/

inductive Call
  | record (cycles : UInt64)
  | reset
deriving DecidableEq

def step (h : LatencyHistogram) : Call → LatencyHistogram
  | .record cycles => h.record cycles
  | .reset => h.reset

/-- The histogram after a run of calls. -/
def after (n : List UInt8) (calls : List Call) : LatencyHistogram := calls.foldl step (new n)

/-- The samples recorded since construction or the last reset. -/
def since (calls : List Call) : List UInt64 :=
  calls.foldl (fun samples call =>
    match call with
    | .record cycles => samples ++ [cycles]
    | .reset => []) []

/-- The counters agree with the values of the samples, modulo 2 ^ 64. -/
structure Describes (h : LatencyHistogram) (values : List ℕ) : Prop where
  buckets : ∀ b, h.buckets b = UInt64.ofNat (values.countP (fun v => Nat.log 2 v = b.val))
  total : h.totalSamples = UInt64.ofNat values.length

variable {h : LatencyHistogram} {values : List ℕ}

theorem Describes.record (hd : Describes h values) (cycles : UInt64) :
    Describes (h.record cycles) (values ++ [cycles.toNat]) := by
  have hlog := bucket_eq_log cycles
  refine ⟨fun b => ?_, ?_⟩
  · rw [List.countP_append, List.countP_singleton, UInt64.ofNat_add, ← hd.buckets b]
    simp only [LatencyHistogram.record, Function.update_apply, decide_eq_true_eq]
    by_cases hb : b = bucket cycles
    · rw [if_pos hb, hb, if_pos hlog.symm]
      rfl
    · have hval : ¬ Nat.log 2 cycles.toNat = b.val := fun heq => hb (Fin.ext (by omega))
      rw [if_neg hb, if_neg hval]
      simp
  · rw [List.length_append, List.length_singleton, UInt64.ofNat_add, ← hd.total]
    rfl

theorem describes_reset (h : LatencyHistogram) : Describes h.reset [] :=
  ⟨fun _ => rfl, rfl⟩

theorem after_describes (n : List UInt8) (calls : List Call) :
    Describes (after n calls) ((since calls).map UInt64.toNat) := by
  induction calls using List.reverseRecOn with
  | nil => exact ⟨fun _ => rfl, rfl⟩
  | append_singleton calls call ih =>
    cases call with
    | record cycles =>
      have hafter : after n (calls ++ [.record cycles]) = (after n calls).record cycles := by
        simp [after, step]
      have hsince : since (calls ++ [.record cycles]) = since calls ++ [cycles] := by
        simp [since]
      rw [hafter, hsince, List.map_append]
      exact ih.record cycles
    | reset =>
      have hafter : after n (calls ++ [.reset]) = (after n calls).reset := by
        simp [after, step]
      have hsince : since (calls ++ [.reset]) = [] := by
        simp [since]
      rw [hafter, hsince]
      exact describes_reset _

/-! ### The scan -/

section Scan

variable (hd : Describes h values) (hlt : values.length < 2 ^ 64)

include hd hlt

theorem Describes.toNat_bucket (b : Fin 64) :
    (h.buckets b).toNat = values.countP (fun v => Nat.log 2 v = b.val) := by
  rw [hd.buckets b]
  exact UInt64.toNat_ofNat_of_lt' (lt_of_le_of_lt List.countP_le_length hlt)

theorem Describes.toNat_total : h.totalSamples.toNat = values.length := by
  rw [hd.total]
  exact UInt64.toNat_ofNat_of_lt' hlt

/-- Before bucket k the accumulator counts the samples of the buckets below. -/
theorem Describes.scan_drop (hvalues : ∀ v ∈ values, v < 2 ^ 64) {threshold acc : UInt64} {i k : ℕ}
    (hthreshold : threshold.toNat = i + 1) (hi : i < (ascending values).length)
    (hacc : acc.toNat = values.countP (fun v => Nat.log 2 v < k)) (hbelow : acc.toNat ≤ i) :
    ∃ b, scan h.buckets threshold acc ((List.finRange 64).drop k) = some b ∧
      b.val = Nat.log 2 (ascending values)[i] := by
  induction hrest : 64 - k generalizing acc k with
  | zero =>
    -- all samples are below bucket 64
    have hall : values.countP (fun v => Nat.log 2 v < k) = values.length := by
      apply countP_key_lt_bound
      intro v hv
      exact lt_of_lt_of_le (Nat.log_lt_of_lt_pow' (by decide) (hvalues v hv)) (by omega)
    rw [length_ascending] at hi
    omega
  | succ m ih =>
    have hk : k < 64 := by omega
    have hdrop : (List.finRange 64).drop k = ⟨k, hk⟩ :: (List.finRange 64).drop (k + 1) := by
      rw [List.drop_eq_getElem_cons (by simpa using hk)]
      simp
    have hnext : (acc + h.buckets ⟨k, hk⟩).toNat =
        values.countP (fun v => Nat.log 2 v < k + 1) := by
      rw [UInt64.toNat_add, hacc, hd.toNat_bucket hlt, ← countP_key_lt_succ]
      exact Nat.mod_eq_of_lt (lt_of_le_of_lt List.countP_le_length hlt)
    rw [hdrop, scan]
    split
    · rename_i hreached
      rw [ge_iff_le, UInt64.le_iff_toNat_le, hthreshold, hnext] at hreached
      refine ⟨⟨k, hk⟩, rfl, ?_⟩
      rw [hacc] at hbelow
      exact (key_ascending_eq Nat.log_monotone hi hbelow hreached).symm
    · rename_i hreached
      rw [ge_iff_le, UInt64.le_iff_toNat_le, hthreshold] at hreached
      exact ih hnext (by omega) (by omega)

end Scan

/-! ### Percentiles -/

/-- The threshold of the source in exact arithmetic, for a number of samples. -/
def rank (total : ℕ) (pct : ℚ) : ℕ := max 1 ⌊(total : ℚ) * pct / 100 + 1 / 2⌋₊

theorem rank_mono (total : ℕ) {p q : ℚ} (hpq : p ≤ q) : rank total p ≤ rank total q := by
  apply max_le_max (le_refl 1)
  apply Nat.floor_mono
  gcongr

theorem rank_le {total : ℕ} (hpos : 0 < total) {pct : ℚ} (hpct : pct ≤ 100) :
    rank total pct ≤ total := by
  apply max_le hpos
  have hbound : (total : ℚ) * pct / 100 + 1 / 2 < (total : ℚ) + 1 := by
    have hmul : (total : ℚ) * pct ≤ total * 100 := by gcongr
    linarith
  have hfloor : ⌊(total : ℚ) * pct / 100 + 1 / 2⌋₊ < total + 1 := by
    rw [Nat.floor_lt' (by omega)]
    exact_mod_cast hbound
  omega

theorem Describes.toNat_threshold (hd : Describes h values) (hlt : values.length < 2 ^ 64)
    (hpos : 0 < values.length) {pct : ℚ} (hpct : pct ≤ 100) :
    (h.threshold pct).toNat = rank values.length pct := by
  have hle := rank_le hpos hpct
  unfold rank at hle ⊢
  unfold threshold
  rw [hd.toNat_total hlt]
  generalize ⌊(values.length : ℚ) * pct / 100 + 1 / 2⌋₊ = n at hle ⊢
  have hn : n < 2 ^ 64 := by omega
  have htoNat : (UInt64.ofNat n).toNat = n := UInt64.toNat_ofNat_of_lt' hn
  dsimp only
  by_cases hzero : UInt64.ofNat n = 0
  · rw [if_pos hzero]
    have : n = 0 := by
      rw [← htoNat, hzero]
      rfl
    rw [this]
    rfl
  · rw [if_neg hzero, htoNat]
    have : n ≠ 0 := fun h0 => hzero (by rw [h0]; rfl)
    omega

section Selected

variable (hd : Describes h values) (hlt : values.length < 2 ^ 64)
  (hvalues : ∀ v ∈ values, v < 2 ^ 64) (hpos : 0 < values.length)

include hd hlt hvalues hpos

theorem Describes.selected_eq {pct : ℚ} (hpct : pct ≤ 100) :
    ∃ (b : Fin 64) (hi : rank values.length pct - 1 < (ascending values).length),
      h.selected pct = some b ∧
        b.val = Nat.log 2 (ascending values)[rank values.length pct - 1] := by
  have hle := rank_le hpos hpct
  have hone : 1 ≤ rank values.length pct := le_max_left _ _
  have hi : rank values.length pct - 1 < (ascending values).length := by
    rw [length_ascending]
    omega
  have hthreshold : (h.threshold pct).toNat = rank values.length pct - 1 + 1 := by
    rw [hd.toNat_threshold hlt hpos hpct]
    omega
  have hstart : (0 : UInt64).toNat = values.countP (fun v => Nat.log 2 v < 0) := by simp
  obtain ⟨b, hscan, hb⟩ := hd.scan_drop hlt hvalues hthreshold hi hstart (Nat.zero_le _)
  exact ⟨b, hi, hscan, hb⟩

theorem Describes.percentileNs_mono {nsPerCycle : ℚ} (hns : 0 ≤ nsPerCycle) {p q : ℚ} (hpq : p ≤ q)
    (hq : q ≤ 100) : h.percentileNs nsPerCycle p ≤ h.percentileNs nsPerCycle q := by
  obtain ⟨b, hi, hb, hlog⟩ := hd.selected_eq hlt hvalues hpos (le_trans hpq hq)
  obtain ⟨c, hj, hc, hlog'⟩ := hd.selected_eq hlt hvalues hpos hq
  have hrank := rank_mono values.length hpq
  have hbc : b.val ≤ c.val := by
    rw [hlog, hlog']
    apply Nat.log_mono_right
    exact ascending_mono (by omega) hj
  rw [percentileNs, percentileNs, hb, hc]
  exact mul_le_mul_of_nonneg_right (pow_le_pow_right₀ (by norm_num) hbc) hns

end Selected

theorem log_max_one (s : ℕ) : Nat.log 2 (max 1 s) = Nat.log 2 s := by
  cases s with
  | zero => rfl
  | succ s => rw [max_eq_right (by omega)]

/-- For each percentile the scan stops at the bucket of the sample of that rank, and it always
stops. Larger percentiles are not reported smaller. -/
theorem report_order_statistics (n : List UInt8) (calls : List Call)
    (hsome : since calls ≠ []) (hlt : (since calls).length < 2 ^ 64) :
    (∀ pct : ℚ, 0 < pct → pct ≤ 100 →
      ∃ s b, (ascending ((since calls).map UInt64.toNat))[rank (since calls).length pct - 1]? =
          some s ∧
        (after n calls).selected pct = some b ∧ b.val = Nat.log 2 (max 1 s) ∧
        2 ^ b.val ≤ max 1 s ∧ max 1 s < 2 ^ (b.val + 1) ∧
        ∀ nsPerCycle, (after n calls).percentileNs nsPerCycle pct = 2 ^ b.val * nsPerCycle) ∧
    ∀ nsPerCycle : ℚ,
      let p50 := (after n calls).percentileNs nsPerCycle 50
      let p99 := (after n calls).percentileNs nsPerCycle 99
      let p999 := (after n calls).percentileNs nsPerCycle (999 / 10)
      ∃ samples, samples.toNat = (since calls).length ∧
        (after n calls).report nsPerCycle =
          .percentiles (after n calls).name p50 p99 p999 samples ∧
        (0 ≤ nsPerCycle → p50 ≤ p99 ∧ p99 ≤ p999) := by
  have hd := after_describes n calls
  have hlength : ((since calls).map UInt64.toNat).length = (since calls).length :=
    List.length_map ..
  have hpos : 0 < (since calls).length := List.length_pos_iff.mpr hsome
  rw [← hlength] at hlt hpos ⊢
  have hvalues : ∀ v ∈ (since calls).map UInt64.toNat, v < 2 ^ 64 := by
    intro v hv
    obtain ⟨s, -, rfl⟩ := List.mem_map.mp hv
    exact s.toNat_lt
  constructor
  · intro pct _ hpct
    obtain ⟨b, hi, hselected, hlog⟩ := hd.selected_eq hlt hvalues hpos hpct
    refine ⟨_, b, List.getElem?_eq_getElem hi, hselected, ?_⟩
    rw [← log_max_one] at hlog
    refine ⟨hlog, ?_, ?_, ?_⟩
    · rw [hlog]
      exact Nat.pow_log_le_self 2 (by omega)
    · rw [hlog]
      exact Nat.lt_pow_succ_log_self (by decide) _
    · intro nsPerCycle
      rw [percentileNs, hselected]
  · intro nsPerCycle
    have htotal := hd.toNat_total hlt
    have hne : ¬ (after n calls).totalSamples = 0 := by
      intro hzero
      rw [hzero] at htotal
      exact absurd htotal (by simpa using hpos.ne)
    refine ⟨_, htotal, if_neg hne, fun hns => ⟨?_, ?_⟩⟩
    · exact hd.percentileNs_mono hlt hvalues hpos hns (by norm_num) (by norm_num)
    · exact hd.percentileNs_mono hlt hvalues hpos hns (by norm_num) (by norm_num)

/-- The median of 0, 3, 4 and 1000 is reported as 2 cycles. -/
theorem report_order_statistics_after_reset :
    ∃ b, (after [] [.record 7, .reset, .record 4, .record 0, .record 1000, .record 3]).selected 50 =
      some b ∧ b.val = 1 := by
  obtain ⟨s, b, hs, hb, hlog, -⟩ :=
    (report_order_statistics []
      [.record 7, .reset, .record 4, .record 0, .record 1000, .record 3]
      (by decide) (by decide)).1 50 (by norm_num) (by norm_num)
  have hrank : rank 4 50 = 2 := by
    have hfloor : ⌊((4 : ℕ) : ℚ) * 50 / 100 + 1 / 2⌋₊ = 2 := by
      rw [Nat.floor_eq_iff (by norm_num)]
      norm_num
    rw [rank, hfloor]
    rfl
  change (ascending [4, 0, 1000, 3])[rank 4 50 - 1]? = some s at hs
  rw [hrank] at hs
  have hthree : s = 3 := (Option.some.inj hs).symm
  rw [hthree] at hlog
  exact ⟨b, hb, hlog⟩

end LatencyHistogram

end HftSystem
