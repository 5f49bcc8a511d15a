import HftSystem.ByteMemory
import HftSystem.ByteWords

/-!
The frame reader of the WebSocket client over a transport that hands out the
bytes of the stream in pieces of any size. The receive buffer is a memory without
bounds, so that a write beyond its end is a write like any other. The bytes that
the random generator returns are a parameter.
-/
namespace HftSystem

open ByteMemory ByteWords

/-! ### The transport -/

/-- `chunks` says how many bytes each call of `recv` is ready to return. `sent`
holds the data of each call of `send`. `recvFailed` records whether a call of
`recv` has returned no byte. -/
structure TLSClient where
  incoming : List UInt8
  chunks : ℕ → ℕ
  recvCalls : ℕ := 0
  sent : List (List UInt8) := []
  recvFailed : Bool := false

namespace TLSClient

/-- Between 1 and the requested number of the next bytes; none at the end of the
stream, where the call returns a value that is not positive. -/
def recv (c : TLSClient) (length : ℕ) : List UInt8 × TLSClient :=
  let n := max 1 (min (c.chunks c.recvCalls) length)
  (c.incoming.take n,
    { c with incoming := c.incoming.drop n
             recvCalls := c.recvCalls + 1
             recvFailed := c.recvFailed || c.incoming.isEmpty })

def send (c : TLSClient) (data : List UInt8) : TLSClient := { c with sent := c.sent ++ [data] }

/-- The loop of `recv_exact`, with as many turns as there are bytes to read. -/
def recvLoop : (turns : ℕ) → TLSClient → (left : ℕ) → List UInt8 × TLSClient
  | 0, c, _ => ([], c)
  | turns + 1, c, left =>
    if left = 0 then ([], c)
    else
      let (bytes, c) := c.recv left
      if bytes = [] then ([], c)
      else
        let (more, c) := recvLoop turns c (left - bytes.length)
        (bytes ++ more, c)

/-- The bytes received; `recv_exact` succeeds if they are as many as asked for. -/
def recvExact (c : TLSClient) (len : ℕ) : List UInt8 × TLSClient := recvLoop len c len

end TLSClient

/-! ### The frame reader -/

structure WebSocketFrame where
  fin : Bool
  opcode : UInt8
  payload : List UInt8
deriving DecidableEq

/-- `rand` gives the bytes that each call of the random generator writes. -/
structure WebSocket where
  tls : TLSClient
  recvBuf : Memory
  rand : ℕ → Fin 4 → UInt8
  randCalls : ℕ := 0

namespace WebSocket

def maxFrameSize : ℕ := 8192

/-- `recv_exact` into the receive buffer. -/
def recvExact (ws : WebSocket) (offset len : ℕ) : WebSocket × Bool :=
  let (bytes, tls) := ws.tls.recvExact len
  ({ ws with tls, recvBuf := writeAt ws.recvBuf offset bytes }, bytes.length = len)

def sendControlFrame (ws : WebSocket) (opcode : UInt8) (payload : List UInt8) : WebSocket × Bool :=
  if payload.length > 125 then (ws, false)
  else
    let maskKey := List.ofFn (ws.rand ws.randCalls)
    let sendBuf := [0x80 ||| (opcode &&& 0x0F), 0x80 ||| UInt8.ofNat payload.length] ++ maskKey ++
      applyMask maskKey payload
    ({ ws with tls := ws.tls.send sendBuf, randCalls := ws.randCalls + 1 }, true)

/-- What the header of a frame says, and the offset at which its payload goes. -/
structure FrameHeader where
  fin : Bool
  opcode : UInt8
  masked : Bool
  payloadLen : ℕ
  offset : ℕ

/-- The first part of `read_frame`: the two fixed bytes and the extended length. -/
def readHeader (ws : WebSocket) : WebSocket × Option FrameHeader :=
  match ws.recvExact 0 2 with
  | (ws, false) => (ws, none)
  | (ws, true) =>
    let byte1 := ws.recvBuf 0
    let byte2 := ws.recvBuf 1
    let fin := byte1 &&& 0x80 ≠ 0
    let opcode := byte1 &&& 0x0F
    let masked := byte2 &&& 0x80 ≠ 0
    let payloadLen := (byte2 &&& 0x7F).toNat
    if payloadLen = 126 then
      match ws.recvExact 2 2 with
      | (ws, false) => (ws, none)
      | (ws, true) => (ws, some ⟨fin, opcode, masked, ofBE (slice ws.recvBuf 2 2), 4⟩)
    else if payloadLen = 127 then
      match ws.recvExact 2 8 with
      | (ws, false) => (ws, none)
      | (ws, true) => (ws, some ⟨fin, opcode, masked, ofBE (slice ws.recvBuf 2 8), 10⟩)
    else (ws, some ⟨fin, opcode, masked, payloadLen, 2⟩)

/-- The mask key, read into an array of its own. -/
def readMask (ws : WebSocket) (masked : Bool) : WebSocket × Option (List UInt8) :=
  if masked then
    let (bytes, tls) := ws.tls.recvExact 4
    ({ ws with tls }, if bytes.length = 4 then some bytes else none)
  else (ws, some [0, 0, 0, 0])

def readPayload (ws : WebSocket) (h : FrameHeader) : WebSocket × Bool :=
  if h.payloadLen > 0 then ws.recvExact h.offset h.payloadLen else (ws, true)

def readFrame (ws : WebSocket) : WebSocket × Option WebSocketFrame :=
  match ws.readHeader with
  | (ws, none) => (ws, none)
  | (ws, some h) =>
    if h.payloadLen > maxFrameSize then (ws, none)
    else
      match ws.readMask h.masked with
      | (ws, none) => (ws, none)
      | (ws, some mask) =>
        match ws.readPayload h with
        | (ws, false) => (ws, none)
        | (ws, true) =>
          let recvBuf :=
            if h.masked ∧ h.payloadLen > 0 then maskAt ws.recvBuf h.offset h.payloadLen mask
            else ws.recvBuf
          let ws := { ws with recvBuf }
          let payload := slice ws.recvBuf h.offset h.payloadLen
          if h.opcode = 0x9 then ((ws.sendControlFrame 0xA payload).1, none)
          else (ws, some ⟨h.fin, h.opcode, payload⟩)

/-- Repeated calls of `read_frame`, with what they return. -/
def readFrames : (calls : ℕ) → WebSocket → WebSocket × List (Option WebSocketFrame)
  | 0, ws => (ws, [])
  | calls + 1, ws =>
    let (ws, frame) := ws.readFrame
    let (ws, frames) := readFrames calls ws
    (ws, frame :: frames)

end WebSocket

/-! ### Receiving does not depend on the pieces -/

namespace TLSClient

/-- What a complete reception does to the client. -/
structure Received (c c' : TLSClient) (rest : List UInt8) : Prop where
  incoming : c'.incoming = rest
  sent : c'.sent = c.sent
  recvFailed : c'.recvFailed = c.recvFailed

theorem Received.trans {c c' c'' : TLSClient} {rest rest' : List UInt8} (h : Received c c' rest)
    (h' : Received c' c'' rest') : Received c c'' rest' :=
  ⟨h'.incoming, h'.sent.trans h.sent, h'.recvFailed.trans h.recvFailed⟩

theorem recvLoop_received {turns : ℕ} {c : TLSClient} {bytes rest : List UInt8}
    (hturns : bytes.length ≤ turns) (hincoming : c.incoming = bytes ++ rest) :
    ∃ c', recvLoop turns c bytes.length = (bytes, c') ∧ Received c c' rest := by
  induction turns generalizing c bytes with
  | zero =>
    obtain rfl : bytes = [] := List.length_eq_zero_iff.mp (by omega)
    exact ⟨c, rfl, hincoming, rfl, rfl⟩
  | succ turns ih =>
    rw [recvLoop]
    by_cases hzero : bytes.length = 0
    · obtain rfl : bytes = [] := List.length_eq_zero_iff.mp hzero
      exact ⟨c, rfl, hincoming, rfl, rfl⟩
    · rw [if_neg hzero, recv]
      dsimp only
      generalize hn : max 1 (min (c.chunks c.recvCalls) bytes.length) = n
      have hle : n ≤ bytes.length := by omega
      have hpos : 0 < n := by omega
      have htake : c.incoming.take n = bytes.take n := by
        rw [hincoming, List.take_append_of_le_length hle]
      have hdrop : c.incoming.drop n = bytes.drop n ++ rest := by
        rw [hincoming, List.drop_append_of_le_length hle]
      have hsome : c.incoming.isEmpty = false := by
        rw [List.isEmpty_eq_false_iff, hincoming]
        intro hnil
        exact hzero (by rw [(List.append_eq_nil_iff.mp hnil).1, List.length_nil])
      have hne : bytes.take n ≠ [] := by
        intro hnil
        have hlength := congrArg List.length hnil
        rw [List.length_take, List.length_nil] at hlength
        omega
      have hleft : bytes.length - (bytes.take n).length = (bytes.drop n).length := by
        rw [List.length_take, List.length_drop]
        omega
      have hturns' : (bytes.drop n).length ≤ turns := by
        rw [List.length_drop]
        omega
      rw [htake, hdrop, if_neg hne, hleft]
      obtain ⟨c', hloop, hreceived⟩ := ih (c := { c with
          incoming := bytes.drop n ++ rest
          recvCalls := c.recvCalls + 1
          recvFailed := c.recvFailed || c.incoming.isEmpty }) hturns' rfl
      refine ⟨c', ?_, hreceived.incoming, hreceived.sent, ?_⟩
      · rw [hloop, List.take_append_drop]
      · rw [hreceived.recvFailed, hsome, Bool.or_false]

theorem recvExact_received {c : TLSClient} {bytes rest : List UInt8} {len : ℕ}
    (hlen : bytes.length = len) (hincoming : c.incoming = bytes ++ rest) :
    ∃ c', c.recvExact len = (bytes, c') ∧ Received c c' rest := by
  subst hlen
  exact recvLoop_received (le_refl _) hincoming

/-- At the end of the stream the first call fails. -/
theorem recvExact_empty {c : TLSClient} {len : ℕ} (hlen : 0 < len) (hincoming : c.incoming = []) :
    ∃ c', c.recvExact len = ([], c') ∧ c'.incoming = [] ∧ c'.recvFailed = true := by
  obtain ⟨turns, rfl⟩ : ∃ turns, len = turns + 1 := ⟨len - 1, by omega⟩
  refine ⟨{ c with incoming := [], recvCalls := c.recvCalls + 1, recvFailed := true }, ?_, rfl, rfl⟩
  simp [recvExact, recvLoop, recv, hincoming]

end TLSClient

namespace WebSocket

theorem recvExact_received {ws : WebSocket} {bytes rest : List UInt8} {len : ℕ} (offset : ℕ)
    (hlen : bytes.length = len) (hincoming : ws.tls.incoming = bytes ++ rest) :
    ∃ tls, ws.recvExact offset len =
        ({ ws with tls, recvBuf := writeAt ws.recvBuf offset bytes }, true) ∧
      TLSClient.Received ws.tls tls rest := by
  obtain ⟨tls, hrecv, hreceived⟩ := TLSClient.recvExact_received hlen hincoming
  refine ⟨tls, ?_, hreceived⟩
  rw [recvExact, hrecv]
  simp [hlen]

/-- Reading on at the end of the stream only records the failure. -/
theorem readFrame_empty {ws : WebSocket} (hincoming : ws.tls.incoming = []) :
    (ws.readFrame).1.tls.incoming = [] ∧ (ws.readFrame).1.tls.recvFailed = true ∧
      (ws.readFrame).2 = none := by
  obtain ⟨tls, hrecv, hempty, hfailed⟩ :=
    TLSClient.recvExact_empty (show 0 < 2 by decide) hincoming
  have hheader : ws.recvExact 0 2 =
      ({ ws with tls, recvBuf := writeAt ws.recvBuf 0 [] }, false) := by
    rw [recvExact, hrecv]
    simp
  rw [readFrame, readHeader, hheader]
  exact ⟨hempty, hfailed, rfl⟩

end WebSocket

end HftSystem
