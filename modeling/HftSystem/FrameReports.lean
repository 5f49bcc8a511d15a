import HftSystem.LatencyReports
import HftSystem.MarketDataIngester

/-!
The latencies that the ingester measures for every frame that `read_frame` returns, and the
reports that it prints after every ten thousand of them, whatever the server sends. The time
for a frame is the sum of the time to receive it and the time to process it.
-/
namespace HftSystem.MarketDataIngester

open WebSocket LatencyHistogram

/-! ### The loop with its histograms -/

/-- The readings of the time stamp counter for one frame: before `read_frame`, behind its last
reception, behind its return, and around the parser. -/
structure FrameReadings where
  start : UInt64
  ioDone : UInt64
  frameDone : UInt64
  sbe0 : UInt64
  sbe1 : UInt64

structure FrameHistograms where
  histWsTotal : LatencyHistogram := .new (ascii "ws_frame_tot")
  histWsIo : LatencyHistogram := .new (ascii "ws_io")
  histWsCpu : LatencyHistogram := .new (ascii "ws_cpu")
  histSbe : LatencyHistogram := .new (ascii "sbe_decode")

/-- What `report_ws_latencies` prints. -/
structure WsReport where
  frames : UInt64
  wsTotal : Report
  wsIo : Report
  wsCpu : Report
  sbe : Report

def kWsReportInterval : UInt64 := 10000

def recordFrame (h : FrameHistograms) (e : WebSocketFrame × FrameReadings) : FrameHistograms where
  histWsIo := h.histWsIo.record (e.2.ioDone - e.2.start)
  histWsCpu := h.histWsCpu.record (e.2.frameDone - e.2.ioDone)
  histWsTotal := h.histWsTotal.record (e.2.frameDone - e.2.start)
  histSbe := if e.1.opcode = 0x2 then h.histSbe.record (e.2.sbe1 - e.2.sbe0) else h.histSbe

def reportWsLatencies (nsPerCycle : ℚ) (frameCount : UInt64) (h : FrameHistograms) : WsReport where
  frames := frameCount
  wsTotal := h.histWsTotal.report nsPerCycle
  wsIo := h.histWsIo.report nsPerCycle
  wsCpu := h.histWsCpu.report nsPerCycle
  sbe := h.histSbe.report nsPerCycle

/-- What the loop does for a frame besides parsing it. -/
def measure (nsPerCycle : ℚ) : Counted FrameHistograms WsReport →
    WebSocketFrame × FrameReadings → Counted FrameHistograms WsReport :=
  Counted.event recordFrame (reportWsLatencies nsPerCycle) kWsReportInterval

/-- The loop of `startReceiving` with its histograms; `readings k` are those of the k-th frame
returned. -/
def timedLoop (nsPerCycle : ℚ) (parser : SBEVenueParser) : (turns : ℕ) → (tsc : ℕ → ℕ → UInt64) →
    (readings : ℕ → FrameReadings) → Counted FrameHistograms WsReport → WebSocket →
      WebSocket × List MarketUpdate × Counted FrameHistograms WsReport
  | 0, _, _, c, ws => (ws, [], c)
  | turns + 1, tsc, readings, c, ws =>
    match ws.readFrame with
    | (ws, none) => timedLoop nsPerCycle parser turns tsc readings c ws
    | (ws, some frame) =>
      let c := measure nsPerCycle c (frame, readings 0)
      let readings := fun n => readings (n + 1)
      if frame.opcode = 0x2 then
        let us := parser.parse (tsc 0) frame.payload
        let (ws, more, c) := timedLoop nsPerCycle parser turns (fun n => tsc (n + 1)) readings c ws
        (ws, us ++ more, c)
      else timedLoop nsPerCycle parser turns tsc readings c ws

/-! ### What a run measures -/

/-- The frames that the calls of `read_frame` return, with their readings. -/
def returned (readings : ℕ → FrameReadings) (ws : WebSocket) (turns : ℕ) :
    List (WebSocketFrame × FrameReadings) :=
  ((ws.readFrames turns).2.filterMap id).mapIdx (fun k frame => (frame, readings k))

theorem returned_succ (readings : ℕ → FrameReadings) (ws : WebSocket) (turns : ℕ) :
    returned readings ws (turns + 1) =
      match ws.readFrame with
      | (ws, none) => returned readings ws turns
      | (ws, some frame) =>
        (frame, readings 0) :: returned (fun n => readings (n + 1)) ws turns := by
  unfold returned
  rw [readFrames]
  generalize ws.readFrame = result
  obtain ⟨ws', frame⟩ := result
  cases frame with
  | none => rfl
  | some frame =>
    dsimp only
    rw [List.filterMap_cons_some (show id (some frame) = some frame from rfl), List.mapIdx_cons]

theorem timedLoop_eq (nsPerCycle : ℚ) (parser : SBEVenueParser) (turns : ℕ)
    (tsc : ℕ → ℕ → UInt64) (readings : ℕ → FrameReadings)
    (c : Counted FrameHistograms WsReport) (ws : WebSocket) :
    timedLoop nsPerCycle parser turns tsc readings c ws =
      ((receiveLoop parser turns tsc ws).1, (receiveLoop parser turns tsc ws).2,
        (returned readings ws turns).foldl (measure nsPerCycle) c) := by
  induction turns generalizing tsc readings c ws with
  | zero => rfl
  | succ turns ih =>
    rw [timedLoop, receiveLoop, returned_succ]
    generalize ws.readFrame = result
    obtain ⟨ws', frame⟩ := result
    cases frame with
    | none => exact ih _ _ _ _
    | some frame =>
      dsimp only
      split
      · rw [ih]
        rfl
      · rw [ih]
        rfl

/-- A frame whose payload is handed to the parser has a sample for it. -/
def sbeSample (e : WebSocketFrame × FrameReadings) : Option UInt64 :=
  if e.1.opcode = 0x2 then some (e.2.sbe1 - e.2.sbe0) else none

def ioSample (e : WebSocketFrame × FrameReadings) : UInt64 := e.2.ioDone - e.2.start

def cpuSample (e : WebSocketFrame × FrameReadings) : UInt64 := e.2.frameDone - e.2.ioDone

/-- The histograms hold the samples of the frames. -/
structure MeasuresFrames (es : List (WebSocketFrame × FrameReadings)) (h : FrameHistograms) :
    Prop where
  wsTotal : h.histWsTotal.Holds (ascii "ws_frame_tot") (es.map (fun e => ioSample e + cpuSample e))
  wsIo : h.histWsIo.Holds (ascii "ws_io") (es.map ioSample)
  wsCpu : h.histWsCpu.Holds (ascii "ws_cpu") (es.map cpuSample)
  sbe : h.histSbe.Holds (ascii "sbe_decode") (es.filterMap sbeSample)

theorem MeasuresFrames.recordFrame {es : List (WebSocketFrame × FrameReadings)}
    {h : FrameHistograms} (hm : MeasuresFrames es h) (e : WebSocketFrame × FrameReadings) :
    MeasuresFrames (es ++ [e]) (recordFrame h e) := by
  constructor
  · have hsum : e.2.frameDone - e.2.start = ioSample e + cpuSample e := by
      unfold ioSample cpuSample
      grind
    have hrecord := hm.wsTotal.recordSome (some (e.2.frameDone - e.2.start))
    rw [List.map_append, List.map_singleton, ← hsum]
    exact hrecord
  · rw [List.map_append]
    exact hm.wsIo.recordSome (some (ioSample e))
  · rw [List.map_append]
    exact hm.wsCpu.recordSome (some (cpuSample e))
  · rw [filterMap_concat]
    have hsbe := hm.sbe.recordSome (sbeSample e)
    unfold sbeSample MarketDataIngester.recordFrame at *
    dsimp only
    split
    · rename_i hbinary
      rwa [if_pos hbinary] at hsbe
    · rename_i hbinary
      rwa [if_neg hbinary] at hsbe

theorem measuresFrames_run (es : List (WebSocketFrame × FrameReadings)) :
    MeasuresFrames es (es.foldl recordFrame {}) := by
  induction es using List.reverseRecOn with
  | nil => exact ⟨⟨rfl, fun _ => rfl, rfl⟩, ⟨rfl, fun _ => rfl, rfl⟩, ⟨rfl, fun _ => rfl, rfl⟩,
      ⟨rfl, fun _ => rfl, rfl⟩⟩
  | append_singleton es e ih =>
    rw [List.foldl_append]
    exact ih.recordFrame e

/-- A report on the frames returned so far. -/
structure ReportsOnFrames (nsPerCycle : ℚ) (seen : List (WebSocketFrame × FrameReadings))
    (r : WsReport) : Prop where
  frames : r.frames.toNat = seen.length
  wsTotal : ReportsOn (ascii "ws_frame_tot") (seen.map (fun e => ioSample e + cpuSample e))
    nsPerCycle r.wsTotal
  wsIo : ReportsOn (ascii "ws_io") (seen.map ioSample) nsPerCycle r.wsIo
  wsCpu : ReportsOn (ascii "ws_cpu") (seen.map cpuSample) nsPerCycle r.wsCpu
  sbe : ReportsOn (ascii "sbe_decode") (seen.filterMap sbeSample) nsPerCycle r.sbe

theorem MeasuresFrames.reportsOnFrames {es : List (WebSocketFrame × FrameReadings)}
    {h : FrameHistograms} (hm : MeasuresFrames es h) (hlt : es.length < 2 ^ 64) (nsPerCycle : ℚ) :
    ReportsOnFrames nsPerCycle es (reportWsLatencies nsPerCycle (UInt64.ofNat es.length) h) := by
  have hall : ∀ sample : WebSocketFrame × FrameReadings → UInt64,
      (es.map sample).length < 2 ^ 64 := by
    intro sample
    rwa [List.length_map]
  exact ⟨UInt64.toNat_ofNat_of_lt' hlt, hm.wsTotal.reportsOn (hall _) _,
    hm.wsIo.reportsOn (hall _) _, hm.wsCpu.reportsOn (hall _) _,
    hm.sbe.reportsOn (lt_of_le_of_lt (List.length_filterMap_le _ _) hlt) _⟩

theorem length_returned_le (readings : ℕ → FrameReadings) (ws : WebSocket) (turns : ℕ) :
    (returned readings ws turns).length ≤ turns := by
  induction turns generalizing readings ws with
  | zero => exact le_rfl
  | succ turns ih =>
    rw [returned_succ]
    split
    · exact (ih _ _).trans (Nat.le_succ _)
    · exact Nat.succ_le_succ (ih _ _)

/-- Whatever the server sends and in whatever pieces, the loop enqueues what it enqueues without
measuring, counts the frames that `read_frame` returns, and reports after every ten thousand. -/
theorem frame_reports (nsPerCycle : ℚ) (parser : SBEVenueParser) {turns : ℕ}
    (hturns : turns < 2 ^ 64) (tsc : ℕ → ℕ → UInt64) (readings : ℕ → FrameReadings)
    (ws : WebSocket) :
    let t := timedLoop nsPerCycle parser turns tsc readings { state := {} } ws
    let es := returned readings ws turns
    (t.1, t.2.1) = receiveLoop parser turns tsc ws ∧ t.2.2.count.toNat = es.length ∧
      t.2.2.printed.length = es.length / 10000 ∧
      ∀ k r, t.2.2.printed[k]? = some r → (k + 1) * 10000 ≤ es.length ∧
        ReportsOnFrames nsPerCycle (es.take ((k + 1) * 10000)) r := by
  intro t es
  have hlt : es.length < 2 ^ 64 := lt_of_le_of_lt (length_returned_le readings ws turns) hturns
  have ht : t = _ := timedLoop_eq nsPerCycle parser turns tsc readings { state := {} } ws
  have hc : t.2.2 = _ := (congrArg (fun t => t.2.2) ht).trans
    (Counted.foldl_event recordFrame (reportWsLatencies nsPerCycle) kWsReportInterval {} hlt)
  have hinterval : kWsReportInterval.toNat = 10000 := rfl
  rw [hc, ht]
  refine ⟨rfl, UInt64.toNat_ofNat_of_lt' hlt, ?_, ?_⟩
  · rw [Counted.length_due, hinterval]
  · intro k r hr
    obtain ⟨hle, rfl⟩ := Counted.due_getElem? _ _ _ hr
    rw [hinterval] at hle ⊢
    have hlength : (es.take ((k + 1) * 10000)).length = (k + 1) * 10000 :=
      List.length_take_of_le hle
    have hreports := (measuresFrames_run (es.take ((k + 1) * 10000))).reportsOnFrames
      (by omega) nsPerCycle
    rw [hlength] at hreports
    exact ⟨hle, hreports⟩

/-- A ping is answered but not counted. -/
theorem frame_reports_text_ping :
    (timedLoop 1 sampleParser 2 (fun _ _ => 0) (fun _ => ⟨10, 20, 30, 40, 50⟩) { state := {} }
      (connected ([maskedText, unmaskedPing].flatMap Frame.encode) (fun _ => 1) (fun _ => 0)
        (fun _ _ => 5))).2.2.count.toNat = 1 :=
  (frame_reports 1 sampleParser (show 2 < 2 ^ 64 by decide) (fun _ _ => 0)
    (fun _ => ⟨10, 20, 30, 40, 50⟩)
    (connected ([maskedText, unmaskedPing].flatMap Frame.encode) (fun _ => 1) (fun _ => 0)
      (fun _ _ => 5))).2.1.trans (by decide +kernel)

end HftSystem.MarketDataIngester
