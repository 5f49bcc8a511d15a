import HftSystem.LatencyHistogram
import HftSystem.OrderBookManager
import HftSystem.PeriodicReports
import HftSystem.WebSocketHandshake

/-!
The latencies that the order book manager measures while it passes updates on, and the reports
that it prints after every million of them. The k-th report is about the first k million
updates, and each of its percentiles is, up to a factor of two, the sample of that rank.
-/
namespace HftSystem

open WebSocket

/-! ### Reports of a histogram -/

namespace LatencyHistogram

open OrderStatistics

def recordSome (h : LatencyHistogram) : Option UInt64 → LatencyHistogram
  | none => h
  | some cycles => h.record cycles

variable {h : LatencyHistogram} {samples : List UInt64}

@[simp] theorem recordSome_name (h : LatencyHistogram) (sample : Option UInt64) :
    (h.recordSome sample).name = h.name := by
  cases sample <;> rfl

theorem filterMap_concat {ε : Type} (sample : ε → Option UInt64) (es : List ε) (e : ε) :
    (es ++ [e]).filterMap sample = es.filterMap sample ++ (sample e).toList := by
  rw [List.filterMap_append]
  cases he : sample e <;> simp [he]

theorem Describes.recordSome (hd : Describes h (samples.map UInt64.toNat))
    (sample : Option UInt64) :
    Describes (h.recordSome sample) ((samples ++ sample.toList).map UInt64.toNat) := by
  cases sample with
  | none => simpa [LatencyHistogram.recordSome] using hd
  | some cycles =>
    rw [List.map_append]
    exact hd.record cycles

/-- The reported time is a power of two of cycles that is at most the sample of the rank of the
percentile, and more than half of it. -/
def Percentile (samples : List UInt64) (nsPerCycle pct time : ℚ) : Prop :=
  ∃ s b, (ascending (samples.map UInt64.toNat))[rank samples.length pct - 1]? = some s ∧
    2 ^ b ≤ max 1 s ∧ max 1 s < 2 ^ (b + 1) ∧ time = 2 ^ b * nsPerCycle

/-- A report of the samples under a name. -/
structure ReportsOn (name : List UInt8) (samples : List UInt64) (nsPerCycle : ℚ) (r : Report) :
    Prop where
  empty : samples = [] → r = .noSamples name
  some : samples ≠ [] → ∃ p50 p99 p999 total, r = .percentiles name p50 p99 p999 total ∧
    total.toNat = samples.length ∧ Percentile samples nsPerCycle 50 p50 ∧
    Percentile samples nsPerCycle 99 p99 ∧ Percentile samples nsPerCycle (999 / 10) p999 ∧
    (0 ≤ nsPerCycle → p50 ≤ p99 ∧ p99 ≤ p999)

section

variable (hd : Describes h (samples.map UInt64.toNat)) (hlt : samples.length < 2 ^ 64)

include hd hlt

theorem Describes.percentile (hsome : samples ≠ []) (nsPerCycle : ℚ) {pct : ℚ}
    (hpct : pct ≤ 100) : Percentile samples nsPerCycle pct (h.percentileNs nsPerCycle pct) := by
  have hlength : (samples.map UInt64.toNat).length = samples.length := List.length_map ..
  have hvalues : ∀ v ∈ samples.map UInt64.toNat, v < 2 ^ 64 := by
    intro v hv
    obtain ⟨s, -, rfl⟩ := List.mem_map.mp hv
    exact s.toNat_lt
  obtain ⟨b, hi, hselected, hlog⟩ := hd.selected_eq (by rwa [hlength]) hvalues
    (by rw [hlength]; exact List.length_pos_iff.mpr hsome) hpct
  rw [← log_max_one] at hlog
  refine ⟨(ascending (samples.map UInt64.toNat))[rank (samples.map UInt64.toNat).length pct - 1],
    b.val, ?_, ?_, ?_, ?_⟩
  · rw [← hlength]
    exact List.getElem?_eq_getElem hi
  · rw [hlog]
    exact Nat.pow_log_le_self 2 (by omega)
  · rw [hlog]
    exact Nat.lt_pow_succ_log_self (by decide) _
  · rw [percentileNs, hselected]

theorem Describes.reportsOn (nsPerCycle : ℚ) :
    ReportsOn h.name samples nsPerCycle (h.report nsPerCycle) := by
  have hlength : (samples.map UInt64.toNat).length = samples.length := List.length_map ..
  have htotal := hd.toNat_total (by rwa [hlength])
  rw [hlength] at htotal
  constructor
  · intro hempty
    rw [hempty] at htotal
    have hzero : h.totalSamples = 0 := UInt64.toNat_inj.mp htotal
    rw [report, if_pos hzero]
  · intro hsome
    have hpos : 0 < samples.length := List.length_pos_iff.mpr hsome
    have hne : ¬ h.totalSamples = 0 := by
      intro hzero
      rw [hzero] at htotal
      exact absurd htotal hpos.ne
    have hvalues : ∀ v ∈ samples.map UInt64.toNat, v < 2 ^ 64 := by
      intro v hv
      obtain ⟨s, -, rfl⟩ := List.mem_map.mp hv
      exact s.toNat_lt
    refine ⟨_, _, _, _, if_neg hne, htotal, hd.percentile hlt hsome _ (by norm_num),
      hd.percentile hlt hsome _ (by norm_num), hd.percentile hlt hsome _ (by norm_num),
      fun hns => ⟨?_, ?_⟩⟩
    · exact hd.percentileNs_mono (by rwa [hlength]) hvalues (by rwa [hlength]) hns (by norm_num)
        (by norm_num)
    · exact hd.percentileNs_mono (by rwa [hlength]) hvalues (by rwa [hlength]) hns (by norm_num)
        (by norm_num)

end

/-- The histogram of a name has recorded exactly these samples. -/
structure Holds (h : LatencyHistogram) (name : List UInt8) (samples : List UInt64) : Prop where
  name : h.name = name
  describes : Describes h (samples.map UInt64.toNat)

theorem Holds.recordSome {name : List UInt8} (hh : Holds h name samples)
    (sample : Option UInt64) : Holds (h.recordSome sample) name (samples ++ sample.toList) :=
  ⟨(recordSome_name h sample).trans hh.name, hh.describes.recordSome sample⟩

theorem Holds.reportsOn {name : List UInt8} (hh : Holds h name samples)
    (hlt : samples.length < 2 ^ 64) (nsPerCycle : ℚ) :
    ReportsOn name samples nsPerCycle (h.report nsPerCycle) := by
  rw [← hh.name]
  exact hh.describes.reportsOn hlt nsPerCycle

end LatencyHistogram

/-! ### The manager -/

/-- The readings of the time stamp counter for one update: when it was taken from the queue,
before and behind the book and before and behind the strategies. -/
structure Readings where
  dequeue : UInt64
  t0 : UInt64
  t1 : UInt64
  t2 : UInt64
  t3 : UInt64

/-- The manager with its histograms. -/
structure TimedManager (M : ℕ) where
  manager : OrderBookManager M
  histQueueWait : LatencyHistogram := .new (ascii "queue_wait")
  histBookUpdate : LatencyHistogram := .new (ascii "book_update")
  histStrategy : LatencyHistogram := .new (ascii "strategy")
  histObmTotal : LatencyHistogram := .new (ascii "obm_total")

/-- What `report_latencies` prints. -/
structure LatencyReport where
  updates : UInt64
  queueWait : LatencyHistogram.Report
  bookUpdate : LatencyHistogram.Report
  strategy : LatencyHistogram.Report
  obmTotal : LatencyHistogram.Report

namespace TimedManager

open LatencyHistogram

variable {M : ℕ}

def kReportInterval : UInt64 := 1000000

def passUpdateToOrderbook [NeZero M] (o : TimedManager M) (u : MarketUpdate) (r : Readings) :
    TimedManager M :=
  match o.manager.idToIndex u.instrumentId with
  | none => o
  | some _ =>
    let histBookUpdate := o.histBookUpdate.record (r.t1 - r.t0)
    let (t3, histStrategy) :=
      if o.manager.strategyManager.isSome then (r.t3, o.histStrategy.record (r.t3 - r.t2))
      else (r.t1, o.histStrategy)
    let histQueueWait :=
      if u.recvTsc ≠ 0 then o.histQueueWait.record (r.dequeue - u.recvTsc) else o.histQueueWait
    let histObmTotal := o.histObmTotal.record (t3 - r.dequeue)
    { manager := o.manager.passUpdateToOrderbook u
      histQueueWait, histBookUpdate, histStrategy, histObmTotal }

def reportLatencies (nsPerCycle : ℚ) (updateCount : UInt64) (o : TimedManager M) :
    LatencyReport where
  updates := updateCount
  queueWait := o.histQueueWait.report nsPerCycle
  bookUpdate := o.histBookUpdate.report nsPerCycle
  strategy := o.histStrategy.report nsPerCycle
  obmTotal := o.histObmTotal.report nsPerCycle

/-- The body of the loop of `run` for an update and its readings. -/
def handle [NeZero M] (nsPerCycle : ℚ) :
    Counted (TimedManager M) LatencyReport → MarketUpdate × Readings →
      Counted (TimedManager M) LatencyReport :=
  Counted.event (fun o e => o.passUpdateToOrderbook e.1 e.2) (reportLatencies nsPerCycle)
    kReportInterval

/-! ### The samples -/

def queueWaitSample (o : OrderBookManager M) (e : MarketUpdate × Readings) : Option UInt64 :=
  if (o.idToIndex e.1.instrumentId).isSome ∧ e.1.recvTsc ≠ 0 then
    some (e.2.dequeue - e.1.recvTsc)
  else none

def bookUpdateSample (o : OrderBookManager M) (e : MarketUpdate × Readings) : Option UInt64 :=
  if (o.idToIndex e.1.instrumentId).isSome then some (e.2.t1 - e.2.t0) else none

def strategySample (o : OrderBookManager M) (e : MarketUpdate × Readings) : Option UInt64 :=
  if (o.idToIndex e.1.instrumentId).isSome ∧ o.strategyManager.isSome then
    some (e.2.t3 - e.2.t2)
  else none

/-- The time up to the last reading that was made. -/
def obmTotalSample (o : OrderBookManager M) (e : MarketUpdate × Readings) : Option UInt64 :=
  if (o.idToIndex e.1.instrumentId).isSome then
    some ((if o.strategyManager.isSome then e.2.t3 else e.2.t1) - e.2.dequeue)
  else none

variable [NeZero M]

theorem passUpdateToOrderbook_eq (o : TimedManager M) (e : MarketUpdate × Readings) :
    o.passUpdateToOrderbook e.1 e.2 =
      { manager := o.manager.passUpdateToOrderbook e.1
        histQueueWait := o.histQueueWait.recordSome (queueWaitSample o.manager e)
        histBookUpdate := o.histBookUpdate.recordSome (bookUpdateSample o.manager e)
        histStrategy := o.histStrategy.recordSome (strategySample o.manager e)
        histObmTotal := o.histObmTotal.recordSome (obmTotalSample o.manager e) } := by
  unfold passUpdateToOrderbook queueWaitSample bookUpdateSample strategySample obmTotalSample
  cases hindex : o.manager.idToIndex e.1.instrumentId with
  | none =>
    rw [OrderBookManager.pass_of_unregistered hindex]
    rfl
  | some index =>
    by_cases hstrategies : o.manager.strategyManager.isSome = true <;>
    by_cases hrecv : e.1.recvTsc = 0 <;>
    simp [hstrategies, hrecv, LatencyHistogram.recordSome]

/-- The histograms hold the samples of the updates passed on. -/
structure Measures (o₀ : OrderBookManager M) (es : List (MarketUpdate × Readings))
    (o : TimedManager M) : Prop where
  manager : o.manager = (es.map Prod.fst).foldl OrderBookManager.passUpdateToOrderbook o₀
  queueWait : o.histQueueWait.Holds (ascii "queue_wait") (es.filterMap (queueWaitSample o₀))
  bookUpdate : o.histBookUpdate.Holds (ascii "book_update") (es.filterMap (bookUpdateSample o₀))
  strategy : o.histStrategy.Holds (ascii "strategy") (es.filterMap (strategySample o₀))
  obmTotal : o.histObmTotal.Holds (ascii "obm_total") (es.filterMap (obmTotalSample o₀))

theorem strategyManager_isSome_pass_all (o : OrderBookManager M) (us : List MarketUpdate) :
    (us.foldl OrderBookManager.passUpdateToOrderbook o).strategyManager.isSome =
      o.strategyManager.isSome := by
  induction us generalizing o with
  | nil => rfl
  | cons u us ih =>
    rw [List.foldl_cons, ih]
    unfold OrderBookManager.passUpdateToOrderbook
    split
    · rfl
    · exact Option.isSome_map

theorem Measures.pass {o₀ : OrderBookManager M} {es : List (MarketUpdate × Readings)}
    {o : TimedManager M} (h : Measures o₀ es o) (e : MarketUpdate × Readings) :
    Measures o₀ (es ++ [e]) (o.passUpdateToOrderbook e.1 e.2) := by
  have hindex : o.manager.idToIndex = o₀.idToIndex := by
    rw [h.manager, OrderBookManager.idToIndex_pass_all]
  have hstrategies : o.manager.strategyManager.isSome = o₀.strategyManager.isSome := by
    rw [h.manager, strategyManager_isSome_pass_all]
  rw [passUpdateToOrderbook_eq]
  constructor
  · rw [List.map_append, List.foldl_append, ← h.manager]
    rfl
  · rw [filterMap_concat, queueWaitSample, hindex]
    exact h.queueWait.recordSome _
  · rw [filterMap_concat, bookUpdateSample, hindex]
    exact h.bookUpdate.recordSome _
  · rw [filterMap_concat, strategySample, hindex, hstrategies]
    exact h.strategy.recordSome _
  · rw [filterMap_concat, obmTotalSample, hindex, hstrategies]
    exact h.obmTotal.recordSome _

theorem measures_run (o₀ : OrderBookManager M) (es : List (MarketUpdate × Readings)) :
    Measures o₀ es (es.foldl (fun o e => o.passUpdateToOrderbook e.1 e.2) { manager := o₀ }) := by
  induction es using List.reverseRecOn with
  | nil => exact ⟨rfl, ⟨rfl, fun _ => rfl, rfl⟩, ⟨rfl, fun _ => rfl, rfl⟩,
      ⟨rfl, fun _ => rfl, rfl⟩, ⟨rfl, fun _ => rfl, rfl⟩⟩
  | append_singleton es e ih =>
    rw [List.foldl_append]
    exact ih.pass e

/-- A report on the updates seen so far. -/
structure ReportsOnAll (nsPerCycle : ℚ) (o₀ : OrderBookManager M)
    (seen : List (MarketUpdate × Readings)) (r : LatencyReport) : Prop where
  updates : r.updates.toNat = seen.length
  queueWait : ReportsOn (ascii "queue_wait") (seen.filterMap (queueWaitSample o₀)) nsPerCycle
    r.queueWait
  bookUpdate : ReportsOn (ascii "book_update") (seen.filterMap (bookUpdateSample o₀)) nsPerCycle
    r.bookUpdate
  strategy : ReportsOn (ascii "strategy") (seen.filterMap (strategySample o₀)) nsPerCycle
    r.strategy
  obmTotal : ReportsOn (ascii "obm_total") (seen.filterMap (obmTotalSample o₀)) nsPerCycle
    r.obmTotal

theorem Measures.reportsOnAll {o₀ : OrderBookManager M} {es : List (MarketUpdate × Readings)}
    {o : TimedManager M} (h : Measures o₀ es o) (hlt : es.length < 2 ^ 64) (nsPerCycle : ℚ) :
    ReportsOnAll nsPerCycle o₀ es (o.reportLatencies nsPerCycle (UInt64.ofNat es.length)) := by
  have hfew : ∀ sample : MarketUpdate × Readings → Option UInt64,
      (es.filterMap sample).length < 2 ^ 64 :=
    fun sample => lt_of_le_of_lt (List.length_filterMap_le _ _) hlt
  exact ⟨UInt64.toNat_ofNat_of_lt' hlt, h.queueWait.reportsOn (hfew _) _,
    h.bookUpdate.reportsOn (hfew _) _, h.strategy.reportsOn (hfew _) _,
    h.obmTotal.reportsOn (hfew _) _⟩

/-- The measuring does not change what the manager does. It counts every update, also those of
unregistered instruments, and reports after every million; the k-th report is on the samples of
the first k + 1 millions. -/
theorem latency_reports (nsPerCycle : ℚ) (o₀ : OrderBookManager M)
    (es : List (MarketUpdate × Readings)) (hlt : es.length < 2 ^ 64) :
    let c := es.foldl (handle nsPerCycle) { state := { manager := o₀ } }
    c.state.manager = (es.map Prod.fst).foldl OrderBookManager.passUpdateToOrderbook o₀ ∧
      c.count.toNat = es.length ∧ c.printed.length = es.length / 1000000 ∧
      ∀ k r, c.printed[k]? = some r → (k + 1) * 1000000 ≤ es.length ∧
        ReportsOnAll nsPerCycle o₀ (es.take ((k + 1) * 1000000)) r := by
  intro c
  have hc := Counted.foldl_event (fun (o : TimedManager M) e => o.passUpdateToOrderbook e.1 e.2)
    (reportLatencies nsPerCycle) kReportInterval { manager := o₀ } hlt
  have hinterval : kReportInterval.toNat = 1000000 := rfl
  change c = _ at hc
  rw [hc]
  refine ⟨(measures_run o₀ es).manager, UInt64.toNat_ofNat_of_lt' hlt, ?_, ?_⟩
  · rw [Counted.length_due, hinterval]
  · intro k r hr
    obtain ⟨hle, rfl⟩ := Counted.due_getElem? _ _ _ hr
    rw [hinterval] at hle ⊢
    have hlength : (es.take ((k + 1) * 1000000)).length = (k + 1) * 1000000 :=
      List.length_take_of_le hle
    have hreports := (measures_run o₀ (es.take ((k + 1) * 1000000))).reportsOnAll
      (by omega) nsPerCycle
    rw [hlength] at hreports
    exact ⟨hle, hreports⟩

/-- A million updates of a registered instrument give one report. -/
theorem latency_reports_million :
    ∃ r, ((List.replicate 1000000 (MarketUpdate.new 7 .buy 100 1 0 0 0,
        Readings.mk 10 20 30 40 50)).foldl (handle 1)
          { state := { manager := (.registered [7] : OrderBookManager 4) } }).printed = [r] ∧
      r.updates.toNat = 1000000 := by
  have hlength : (List.replicate 1000000 (MarketUpdate.new 7 .buy 100 1 0 0 0,
      Readings.mk 10 20 30 40 50)).length = 1000000 := List.length_replicate
  obtain ⟨-, -, hcount, hprinted⟩ := latency_reports 1 (.registered [7] : OrderBookManager 4)
    (List.replicate 1000000 (MarketUpdate.new 7 .buy 100 1 0 0 0, Readings.mk 10 20 30 40 50))
    (by rw [hlength]; norm_num)
  rw [hlength] at hcount
  obtain ⟨r, hr⟩ := List.length_eq_one_iff.mp hcount
  have hreport := (hprinted 0 r (by rw [hr]; rfl)).2.updates
  refine ⟨r, hr, hreport.trans ?_⟩
  rw [List.length_take, hlength]
  norm_num

end TimedManager

end HftSystem
