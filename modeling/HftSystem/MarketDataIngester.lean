import HftSystem.SbeWire
import HftSystem.WebSocketHandshake

/-!
The receive loop: every binary frame is handed to the parser by itself. A run over
any frames enqueues what parsing the payloads of the binary ones gives, in order. Of
a message in fragments only the first is a binary frame.

The histograms of the loop are left out. `tsc k` are the readings of the time stamp
counter in the k-th call of the parser.
-/
namespace HftSystem.MarketDataIngester

open ByteMemory ByteWords WebSocket

/-! ### The loop -/

/-- The loop of `startReceiving` for a number of turns: the updates that it enqueues. -/
def receiveLoop (parser : SBEVenueParser) : (turns : ℕ) → (tsc : ℕ → ℕ → UInt64) →
    WebSocket → WebSocket × List MarketUpdate
  | 0, _, ws => (ws, [])
  | turns + 1, tsc, ws =>
    match ws.readFrame with
    | (ws, none) => receiveLoop parser turns tsc ws
    | (ws, some frame) =>
      if frame.opcode = 0x2 then
        let us := parser.parse (tsc 0) frame.payload
        let (ws, more) := receiveLoop parser turns (fun n => tsc (n + 1)) ws
        (ws, us ++ more)
      else receiveLoop parser turns tsc ws

/-- `connects` is the result of connecting the transport. -/
def startReceiving (parser : SBEVenueParser) (turns : ℕ) (tsc : ℕ → ℕ → UInt64) (connects : Bool)
    (texts : HandshakeTexts) (path protocol : List UInt8) (ws : WebSocket) :
    WebSocket × List MarketUpdate :=
  if connects then
    match ws.performHandshake texts path protocol with
    | (ws, false) => (ws, [])
    | (ws, true) => receiveLoop parser turns tsc ws
  else (ws, [])

/-! ### Runs over frames -/

def isBinary (f : Frame) : Bool := f.opcode.val = 2

/-- Parsing payloads one after the other. -/
def parsePayloads (parser : SBEVenueParser) : (tsc : ℕ → ℕ → UInt64) → List (List UInt8) →
    List MarketUpdate
  | _, [] => []
  | tsc, payload :: payloads =>
    parser.parse (tsc 0) payload ++ parsePayloads parser (fun n => tsc (n + 1)) payloads

def binaryPayloads (fs : List Frame) : List (List UInt8) := (fs.filter isBinary).map Frame.payload

theorem opcode_eq_binary : ∀ opcode : Fin 16, UInt8.ofNat opcode.val = 0x2 ↔ opcode.val = 2 := by
  decide +kernel

/-- Behind the last frame the loop turns without effect. -/
theorem receiveLoop_end (parser : SBEVenueParser) (turns : ℕ) (tsc : ℕ → ℕ → UInt64)
    {ws : WebSocket} (hincoming : ws.tls.incoming = []) :
    (receiveLoop parser turns tsc ws).2 = [] := by
  induction turns generalizing ws with
  | zero => rfl
  | succ turns ih =>
    obtain ⟨hempty, -, hnone⟩ := readFrame_empty hincoming
    rw [receiveLoop]
    generalize ws.readFrame = result at hempty hnone
    obtain ⟨ws', frame⟩ := result
    dsimp only at hempty hnone
    rw [hnone]
    exact ih hempty

/-- One turn of the loop on a frame that fits. -/
theorem receiveLoop_frame (parser : SBEVenueParser) (turns : ℕ) (tsc : ℕ → ℕ → UInt64)
    {ws : WebSocket} {f : Frame} {rest : List UInt8} (hlen : f.payload.length ≤ maxFrameSize)
    (hincoming : ws.tls.incoming = f.encode ++ rest) :
    ∃ ws' : WebSocket, ws'.tls.incoming = rest ∧
      (receiveLoop parser (turns + 1) tsc ws).2 =
        if isBinary f then
          parser.parse (tsc 0) f.payload ++ (receiveLoop parser turns (fun n => tsc (n + 1)) ws').2
        else (receiveLoop parser turns tsc ws').2 := by
  obtain ⟨hrest, -⟩ := readFrame_incoming hlen hincoming
  obtain ⟨after, -, hread⟩ := readFrame_frame hlen hincoming
  have hresult : ws.readFrame.2 = f.result := congrArg Prod.snd hread
  refine ⟨ws.readFrame.1, hrest, ?_⟩
  rw [receiveLoop]
  generalize ws.readFrame = result at hresult
  obtain ⟨ws', frame⟩ := result
  dsimp only at hresult ⊢
  rw [hresult]
  unfold Frame.result Frame.isPing isBinary
  by_cases hping : f.opcode = 9
  · have hbinary : ¬ f.opcode.val = 2 := by
      rw [hping]
      decide
    rw [if_pos (decide_eq_true hping), if_neg (by rwa [decide_eq_true_eq])]
  · rw [if_neg (by rwa [decide_eq_true_eq])]
    dsimp only
    by_cases hbinary : f.opcode.val = 2
    · rw [if_pos ((opcode_eq_binary f.opcode).mpr hbinary), if_pos (decide_eq_true hbinary)]
    · rw [if_neg (fun h => hbinary ((opcode_eq_binary f.opcode).mp h)),
        if_neg (by rwa [decide_eq_true_eq])]

/-- A run over frames that fit parses the payloads of the binary ones in order. -/
theorem receiveLoop_frames (parser : SBEVenueParser) {turns : ℕ} (tsc : ℕ → ℕ → UInt64)
    {ws : WebSocket} {fs : List Frame} (hlen : ∀ f ∈ fs, f.payload.length ≤ maxFrameSize)
    (hincoming : ws.tls.incoming = fs.flatMap Frame.encode) (hturns : fs.length ≤ turns) :
    (receiveLoop parser turns tsc ws).2 = parsePayloads parser tsc (binaryPayloads fs) := by
  induction fs generalizing turns tsc ws with
  | nil => exact receiveLoop_end parser turns tsc hincoming
  | cons f fs ih =>
    obtain ⟨hlen₀, hlen⟩ := List.forall_mem_cons.mp hlen
    rw [List.flatMap_cons] at hincoming
    rw [List.length_cons] at hturns
    obtain ⟨turns, rfl⟩ : ∃ n, turns = n + 1 := ⟨turns - 1, by omega⟩
    obtain ⟨ws', hrest, hloop⟩ := receiveLoop_frame parser turns tsc hlen₀ hincoming
    rw [hloop, ih _ hlen hrest (by omega), ih _ hlen hrest (by omega)]
    unfold binaryPayloads
    rw [List.filter_cons]
    by_cases hbinary : isBinary f = true
    · rw [if_pos hbinary, if_pos hbinary]
      rfl
    · rw [if_neg hbinary, if_neg hbinary]

/-- The whole of `startReceiving`, where the handshake hands the stream over. -/
theorem startReceiving_frames (parser : SBEVenueParser) {turns : ℕ} (tsc : ℕ → ℕ → UInt64)
    (texts : HandshakeTexts) (path protocol : List UInt8) {ws : WebSocket} {fs : List Frame}
    (hlen : ∀ f ∈ fs, f.payload.length ≤ maxFrameSize) (hturns : fs.length ≤ turns)
    (hover : HandsOver (ws.performHandshake texts path protocol) fs) :
    (startReceiving parser turns tsc true texts path protocol ws).2 =
      parsePayloads parser tsc (binaryPayloads fs) := by
  unfold startReceiving
  rw [if_pos rfl]
  generalize ws.performHandshake texts path protocol = after at hover
  obtain ⟨ws', ok⟩ := after
  obtain ⟨rfl, hincoming, -⟩ := hover
  exact receiveLoop_frames parser tsc hlen hincoming hturns

/-! ### Messages in fragments -/

/-- The frames that carry one binary message: one final frame, or a first fragment and
continuations of which the last is final. Pings may stand anywhere. -/
structure Transmission where
  frames : List Frame
  first : Frame
  continuations : List Frame
  data : frames.filter (fun f => !f.isPing) = first :: continuations
  binary : first.opcode.val = 2
  continued : ∀ f ∈ continuations, f.opcode.val = 0
  final : ((first :: continuations).getLast (List.cons_ne_nil _ _)).fin = true
  notFinal : ∀ f ∈ (first :: continuations).dropLast, f.fin = false
  fits : ∀ f ∈ frames, f.header.length + f.payload.length ≤ maxFrameSize

namespace Transmission

variable (t : Transmission)

def message : List UInt8 := (t.first :: t.continuations).flatMap Frame.payload

/-- The one binary frame is the first fragment. -/
theorem binaryPayloads_frames : binaryPayloads t.frames = [t.first.payload] := by
  have hfilter : t.frames.filter isBinary =
      (t.frames.filter (fun f => !f.isPing)).filter isBinary := by
    rw [List.filter_filter]
    refine List.filter_congr (fun f _ => ?_)
    unfold isBinary Frame.isPing
    by_cases hbinary : f.opcode.val = 2
    · have hping : ¬ f.opcode = 9 := by
        intro h
        rw [h] at hbinary
        exact absurd hbinary (by decide)
      rw [decide_eq_false hping]
      simp
    · rw [decide_eq_false hbinary]
      rfl
  have hrest : t.continuations.filter isBinary = [] := by
    refine List.filter_eq_nil_iff.mpr (fun f hf => ?_)
    rw [isBinary, t.continued f hf]
    decide
  have hfirst : isBinary t.first = true := decide_eq_true t.binary
  rw [binaryPayloads, hfilter, t.data, List.filter_cons_of_pos hfirst, hrest]
  rfl

/-- The updates of a run over the frames. -/
def enqueued (parser : SBEVenueParser) (turns : ℕ) (tsc : ℕ → ℕ → UInt64) (chunks : ℕ → ℕ)
    (recvBuf : Memory) (rand : ℕ → Fin 4 → UInt8) : List MarketUpdate :=
  (receiveLoop parser turns tsc (connected (t.frames.flatMap Frame.encode) chunks recvBuf rand)).2

theorem enqueued_eq (parser : SBEVenueParser) {turns : ℕ} (hturns : t.frames.length ≤ turns)
    (tsc : ℕ → ℕ → UInt64) (chunks : ℕ → ℕ) (recvBuf : Memory) (rand : ℕ → Fin 4 → UInt8) :
    t.enqueued parser turns tsc chunks recvBuf rand = parser.parse (tsc 0) t.first.payload := by
  have hlen : ∀ f ∈ t.frames, f.payload.length ≤ maxFrameSize := by
    intro f hf
    have := t.fits f hf
    omega
  rw [enqueued, receiveLoop_frames parser tsc hlen rfl hturns, t.binaryPayloads_frames,
    parsePayloads, parsePayloads, List.append_nil]

/-- Of every binary message the payload of its first frame is parsed and nothing else, which
is the whole message if it comes in one frame. -/
theorem enqueued_first_frame (parser : SBEVenueParser) {turns : ℕ}
    (hturns : t.frames.length ≤ turns) (tsc : ℕ → ℕ → UInt64) (chunks : ℕ → ℕ)
    (recvBuf : Memory) (rand : ℕ → Fin 4 → UInt8) :
    t.enqueued parser turns tsc chunks recvBuf rand = parser.parse (tsc 0) t.first.payload ∧
      (t.continuations = [] →
        t.enqueued parser turns tsc chunks recvBuf rand = parser.parse (tsc 0) t.message) := by
  have hfirst := t.enqueued_eq parser hturns tsc chunks recvBuf rand
  refine ⟨hfirst, fun hsingle => ?_⟩
  rw [hfirst, message, hsingle, List.flatMap_singleton]

end Transmission

def wholeSample : Transmission where
  frames := [binaryFrame true .short SbeWire.sampleDepth.encode (by decide), unmaskedPing]
  first := binaryFrame true .short SbeWire.sampleDepth.encode (by decide)
  continuations := []
  data := rfl
  binary := rfl
  continued := by simp
  final := rfl
  notFinal := by simp
  fits := by decide

/-- The sample cut behind its first byte. -/
def cutSample : Transmission where
  frames := [binaryFrame false .short (SbeWire.sampleDepth.encode.take 1) (by decide), unmaskedPing,
    continuationFrame true .short (SbeWire.sampleDepth.encode.drop 1) (by decide)]
  first := binaryFrame false .short (SbeWire.sampleDepth.encode.take 1) (by decide)
  continuations := [continuationFrame true .short (SbeWire.sampleDepth.encode.drop 1) (by decide)]
  data := rfl
  binary := rfl
  continued := by simp [continuationFrame]
  final := rfl
  notFinal := by simp [binaryFrame, continuationFrame]
  fits := by decide

def sampleParser : SBEVenueParser := SbeWire.binanceParser (.ofRows [⟨[66], [66, 84, 67]⟩]) [66]

/-- Of the message in two fragments, with a ping between them, only the first is parsed; of the
message in one frame everything. -/
theorem enqueued_first_frame_samples :
    cutSample.enqueued sampleParser 3 (fun _ _ => 0) (fun _ => 1) (fun _ => 0) (fun _ _ => 0) =
        sampleParser.parse (fun _ => 0) (SbeWire.sampleDepth.encode.take 1) ∧
      wholeSample.enqueued sampleParser 2 (fun _ _ => 0) (fun _ => 1) (fun _ => 0)
          (fun _ _ => 0) =
        sampleParser.parse (fun _ => 0) wholeSample.message :=
  ⟨(cutSample.enqueued_first_frame sampleParser (show cutSample.frames.length ≤ 3 by decide)
      (fun _ _ => 0) (fun _ => 1) (fun _ => 0) (fun _ _ => 0)).1,
    (wholeSample.enqueued_first_frame sampleParser (show wholeSample.frames.length ≤ 2 by decide)
      (fun _ _ => 0) (fun _ => 1) (fun _ => 0) (fun _ _ => 0)).2 rfl⟩

/-- The same message enqueues two updates in one frame and none in two fragments. -/
theorem cutSample_enqueues_nothing :
    cutSample.message = wholeSample.message ∧
      cutSample.enqueued sampleParser 3 (fun _ _ => 0) (fun _ => 1) (fun _ => 0)
        (fun _ _ => 0) = [] ∧
      (wholeSample.enqueued sampleParser 3 (fun _ _ => 0) (fun _ => 1) (fun _ => 0)
        (fun _ _ => 0)).length = 2 := by
  refine ⟨rfl, ?_, ?_⟩
  · rw [cutSample.enqueued_eq sampleParser (by decide)]
    exact SBEVenueParser.parse_short (by decide) _
  · rw [wholeSample.enqueued_eq sampleParser (by decide)]
    have hparse := SbeWire.parse_depth SbeWire.sampleDepth
      (show (VenueRegistry.ofRows [⟨[66], [66, 84, 67]⟩]).lookup [66] [66, 84, 67] = .ok 0 from rfl)
      (fun _ => 0) []
    have hend : sampleParser.parse (fun _ => 0) [] = [] := SBEVenueParser.parse_short (by decide) _
    rw [List.append_nil, ← sampleParser, hend, List.append_nil] at hparse
    show (sampleParser.parse (fun _ => 0) SbeWire.sampleDepth.encode).length = 2
    rw [hparse]
    rfl

end HftSystem.MarketDataIngester
