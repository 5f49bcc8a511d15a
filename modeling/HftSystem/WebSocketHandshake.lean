import HftSystem.WebSocketFrames
import Mathlib.Data.List.Infix
import Mathlib.Data.List.TakeWhile

/-!
The opening handshake of the WebSocket client, which takes the upgrade response
from a single call of `recv`. It succeeds and leaves the frames to the frame reader
exactly when that call returns the whole response and nothing behind it.
-/
namespace HftSystem.WebSocket

open ByteMemory

/-! ### The handshake -/

def ascii (s : String) : List UInt8 := s.toList.map (fun c => UInt8.ofNat c.toNat)

/-- The texts that the client holds for the handshake. -/
structure HandshakeTexts where
  host : List UInt8
  apiKey : List UInt8
  websocketKey : List UInt8

def handshakeRequest (texts : HandshakeTexts) (path protocol : List UInt8) : List UInt8 :=
  ascii "GET " ++ path ++ ascii " HTTP/1.1\r\n" ++
  ascii "Host: " ++ texts.host ++ ascii "\r\n" ++
  ascii "Upgrade: websocket\r\n" ++
  ascii "Connection: Upgrade\r\n" ++
  ascii "Sec-WebSocket-Key: " ++ texts.websocketKey ++ ascii "\r\n" ++
  ascii "Sec-WebSocket-Version: 13\r\n" ++
  (if protocol = [] then [] else ascii "Sec-WebSocket-Protocol: " ++ protocol ++ ascii "\r\n") ++
  (if texts.apiKey = [] then [] else ascii "X-MBX-APIKEY: " ++ texts.apiKey ++ ascii "\r\n") ++
  ascii "\r\n"

def handshakeBufSize : ℕ := 2048

/-- A response as a C string ends at its first zero byte. -/
def cString (buf : List UInt8) : List UInt8 := buf.takeWhile (fun b => b ≠ 0)

def accepts (response : List UInt8) : Bool :=
  decide (ascii "HTTP/1.1 101" <:+: response) && decide (ascii "Upgrade: websocket" <:+: response)

def performHandshake (ws : WebSocket) (texts : HandshakeTexts) (path protocol : List UInt8) :
    WebSocket × Bool :=
  let tls := ws.tls.send (handshakeRequest texts path protocol)
  let (buf, tls) := tls.recv (handshakeBufSize - 1)
  ({ ws with tls }, if buf = [] then false else accepts (cString buf))

/-! ### Upgrade responses -/

/-- A valid response: it fits the buffer of the handshake and ends with its first empty line. -/
structure UpgradeResponse where
  bytes : List UInt8
  length_le : bytes.length ≤ 2047
  status : ascii "HTTP/1.1 101" <:+: bytes
  upgrade : ascii "Upgrade: websocket" <:+: bytes
  noNul : 0 ∉ bytes
  ends : ascii "\r\n\r\n" <:+ bytes
  ends_first : ¬ ascii "\r\n\r\n" <:+: bytes.dropLast

theorem cString_of_noNul {buf : List UInt8} (h : 0 ∉ buf) : cString buf = buf := by
  refine List.takeWhile_eq_self_iff.mpr (fun b hb => ?_)
  refine decide_eq_true (fun hzero => h ?_)
  rwa [← hzero]

namespace UpgradeResponse

variable (r : UpgradeResponse)

theorem accepted : accepts (cString r.bytes) = true := by
  rw [cString_of_noNul r.noNul, accepts, decide_eq_true r.status, decide_eq_true r.upgrade]
  rfl

theorem length_pos : 0 < r.bytes.length := by
  have hle := r.ends.length_le
  have hfour : (ascii "\r\n\r\n").length = 4 := by decide
  omega

end UpgradeResponse

/-! ### The first piece -/

/-- The number of bytes that the call of `recv` in the handshake returns. -/
def firstPiece (chunks : ℕ → ℕ) (stream : List UInt8) : ℕ :=
  min (max 1 (min (chunks 0) (handshakeBufSize - 1))) stream.length

/-- The handshake succeeds and the frame reader then sees the frames and nothing else. -/
structure HandsOver (after : WebSocket × Bool) (fs : List Frame) : Prop where
  succeeds : after.2 = true
  incoming : after.1.tls.incoming = fs.flatMap Frame.encode
  frames : (after.1.readFrames fs.length).2 = fs.map Frame.result

theorem performHandshake_stream (stream : List UInt8) (chunks : ℕ → ℕ) (recvBuf : Memory)
    (rand : ℕ → Fin 4 → UInt8) (texts : HandshakeTexts) (path protocol : List UInt8) :
    let after := (connected stream chunks recvBuf rand).performHandshake texts path protocol
    after.2 = (if stream.take (firstPiece chunks stream) = [] then false
        else accepts (cString (stream.take (firstPiece chunks stream)))) ∧
      after.1.tls.incoming = stream.drop (firstPiece chunks stream) := by
  have htake : ∀ n, stream.take (min n stream.length) = stream.take n := by
    intro n
    rw [← List.take_take, List.take_length]
  have hdrop : ∀ n, stream.drop (min n stream.length) = stream.drop n := by
    intro n
    rcases le_total n stream.length with hle | hge
    · rw [min_eq_left hle]
    · rw [min_eq_right hge, List.drop_length, List.drop_of_length_le hge]
  unfold firstPiece
  rw [htake, hdrop]
  exact ⟨rfl, rfl⟩

/-- The results of repeated calls on frames that fit. -/
theorem readFrames_results {ws : WebSocket} {fs : List Frame}
    (hlen : ∀ f ∈ fs, f.payload.length ≤ maxFrameSize)
    (hincoming : ws.tls.incoming = fs.flatMap Frame.encode) :
    (ws.readFrames fs.length).2 = fs.map Frame.result := by
  induction fs generalizing ws with
  | nil => rfl
  | cons f fs ih =>
    obtain ⟨hlen₀, hlen⟩ := List.forall_mem_cons.mp hlen
    rw [List.flatMap_cons] at hincoming
    obtain ⟨hrest, -⟩ := readFrame_incoming hlen₀ hincoming
    obtain ⟨ws', -, hread⟩ := readFrame_frame hlen₀ hincoming
    have hresult : ws.readFrame.2 = f.result := congrArg Prod.snd hread
    show ws.readFrame.2 :: (ws.readFrame.1.readFrames fs.length).2 = _
    rw [hresult, ih hlen hrest, List.map_cons]

/-- The handshake hands over exactly when its call of `recv` returns the response and nothing
else. -/
theorem handsOver_iff (r : UpgradeResponse) (fs : List Frame)
    (hfit : ∀ f ∈ fs, f.header.length + f.payload.length ≤ maxFrameSize) (chunks : ℕ → ℕ)
    (recvBuf : Memory) (rand : ℕ → Fin 4 → UInt8) (texts : HandshakeTexts)
    (path protocol : List UInt8) :
    HandsOver ((connected (r.bytes ++ fs.flatMap Frame.encode) chunks recvBuf rand).performHandshake
        texts path protocol) fs ↔
      firstPiece chunks (r.bytes ++ fs.flatMap Frame.encode) = r.bytes.length := by
  obtain ⟨hresult, hincoming⟩ := performHandshake_stream (r.bytes ++ fs.flatMap Frame.encode) chunks
    recvBuf rand texts path protocol
  have hlen : ∀ f ∈ fs, f.payload.length ≤ maxFrameSize := by
    intro f hf
    have := hfit f hf
    omega
  constructor
  · intro hover
    have hleft := congrArg List.length (hincoming.symm.trans hover.incoming)
    rw [List.length_drop, List.length_append] at hleft
    have hle : firstPiece chunks (r.bytes ++ fs.flatMap Frame.encode) ≤
        (r.bytes ++ fs.flatMap Frame.encode).length := min_le_right _ _
    rw [List.length_append] at hle
    omega
  · intro hpiece
    rw [hpiece, List.drop_left] at hincoming
    rw [hpiece, List.take_left, if_neg (List.ne_nil_of_length_pos r.length_pos), r.accepted]
      at hresult
    exact ⟨hresult, hincoming, readFrames_results hlen hincoming⟩

def switchingProtocols : UpgradeResponse where
  bytes := ascii "HTTP/1.1 101 Switching Protocols\r\nUpgrade: websocket\r\n\r\n"
  length_le := by decide +kernel
  status := by decide +kernel
  upgrade := by decide +kernel
  noNul := by decide +kernel
  ends := by decide +kernel
  ends_first := by decide +kernel

theorem handsOver_iff_switchingProtocols :
    HandsOver ((connected (switchingProtocols.bytes ++ [maskedText].flatMap Frame.encode)
        (fun _ => 56) (fun _ => 0) (fun _ _ => 0)).performHandshake ⟨[], [], []⟩ [47] [])
      [maskedText] :=
  (handsOver_iff switchingProtocols [maskedText] (by decide) (fun _ => 56) (fun _ => 0)
    (fun _ _ => 0) ⟨[], [], []⟩ [47] []).mpr (by decide +kernel)

/-- The response cut after its first byte is refused. Together with the first frame it is
accepted, and the frame is lost. -/
theorem handshake_depends_on_chunks :
    let stream := switchingProtocols.bytes ++ [maskedText].flatMap Frame.encode
    let cut := (connected stream (fun _ => 1) (fun _ => 0) (fun _ _ => 0)).performHandshake
      ⟨[], [], []⟩ [47] []
    let coalesced := (connected stream (fun _ => 2047) (fun _ => 0) (fun _ _ => 0)).performHandshake
      ⟨[], [], []⟩ [47] []
    cut.2 = false ∧ ¬ HandsOver cut [maskedText] ∧
      coalesced.2 = true ∧ coalesced.1.tls.incoming = [] ∧ ¬ HandsOver coalesced [maskedText] := by
  intro stream cut coalesced
  have hcut : cut.2 = false := by decide +kernel
  have haccepted : coalesced.2 = true := by decide +kernel
  have hempty : coalesced.1.tls.incoming = [] := by decide +kernel
  refine ⟨hcut, ?_, haccepted, hempty, ?_⟩
  · intro hover
    exact absurd (hcut.symm.trans hover.succeeds) (by decide)
  · intro hover
    exact absurd (hempty.symm.trans hover.incoming) (by decide +kernel)

end HftSystem.WebSocket
