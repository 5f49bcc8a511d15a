import HftSystem.Shutdown
import HftSystem.WebSocketBuffer

/-!
The client on a stream of any bytes. What the frame reader returns and what it sends are
functions of the stream: they depend neither on the pieces in which the bytes arrive nor
on what the receive buffer held before. Of the handshake only the length of its one piece
matters. All that the client ever sends is its request and the pongs for the pings.
-/
namespace HftSystem

open ByteMemory

namespace TLSClient

theorem recvLoop_sent (turns : ℕ) (c : TLSClient) (left : ℕ) :
    (recvLoop turns c left).2.sent = c.sent := by
  induction turns generalizing c left with
  | zero => rfl
  | succ turns ih =>
    rw [recvLoop]
    split
    · rfl
    · dsimp only [recv]
      split
      · rfl
      · exact ih _ _

theorem recvExact_sent (c : TLSClient) (len : ℕ) : (c.recvExact len).2.sent = c.sent :=
  recvLoop_sent len c len

end TLSClient

namespace WebSocket

/-! ### The frame at the front of a stream -/

/-- The mask key at the front of the bytes behind a header. -/
def frontKey (masked : Bool) (bytes : List UInt8) : List UInt8 :=
  if masked then bytes.take 4 else [0, 0, 0, 0]

def frontPayload (h : FrameHeader) (stream : List UInt8) : List UInt8 :=
  let body := (stream.drop (h.offset + maskLen h.masked)).take h.payloadLen
  if h.masked then applyMask (frontKey h.masked (stream.drop h.offset)) body else body

/-- The frame at the front, if the stream holds all of it and it is within the limit. -/
def frontFrame (stream : List UInt8) : Option WebSocketFrame :=
  match streamHeader stream with
  | none => none
  | some h =>
    if h.payloadLen ≤ maxFrameSize ∧
        h.offset + maskLen h.masked + h.payloadLen ≤ stream.length then
      some ⟨h.fin, h.opcode, frontPayload h stream⟩
    else none

/-- What a call returns. -/
def returnedFrame (stream : List UInt8) : Option WebSocketFrame :=
  match frontFrame stream with
  | none => none
  | some f => if f.opcode = 0x9 then none else some f

/-- A payload that a control frame can carry. -/
structure ControlPayload where
  bytes : List UInt8
  short : bytes.length ≤ 125

/-- What a call answers: a longer ping gets no answer. -/
def answeredPing (stream : List UInt8) : Option ControlPayload :=
  match frontFrame stream with
  | none => none
  | some f =>
    if f.opcode = 0x9 then
      if h : f.payload.length ≤ 125 then some ⟨f.payload, h⟩ else none
    else none

def returnedFrames : (calls : ℕ) → List UInt8 → List (Option WebSocketFrame)
  | 0, _ => []
  | calls + 1, stream => returnedFrame stream :: returnedFrames calls (afterFrame stream)

def answeredPings : (calls : ℕ) → List UInt8 → List ControlPayload
  | 0, _ => []
  | calls + 1, stream => (answeredPing stream).toList ++ answeredPings calls (afterFrame stream)

/-- The pongs for the pings, with the keys that the random generator gives from call n on. -/
def pongs (rand : ℕ → Fin 4 → UInt8) : (n : ℕ) → List ControlPayload → List (List UInt8)
  | _, [] => []
  | n, p :: ps => (pong (rand n) p.bytes p.short).encode :: pongs rand (n + 1) ps

theorem pongs_append (rand : ℕ → Fin 4 → UInt8) (n : ℕ) (ps qs : List ControlPayload) :
    pongs rand n (ps ++ qs) = pongs rand n ps ++ pongs rand (n + ps.length) qs := by
  induction ps generalizing n with
  | nil => rfl
  | cons p ps ih =>
    rw [List.cons_append, pongs, ih, pongs, List.length_cons, List.cons_append,
      Nat.add_right_comm n 1 ps.length, Nat.add_assoc]

/-! ### A call of the reader -/

theorem recvExact_sent (ws : WebSocket) (offset len : ℕ) :
    (ws.recvExact offset len).1.tls.sent = ws.tls.sent := TLSClient.recvExact_sent ws.tls len

theorem readHeader_sent (ws : WebSocket) : ws.readHeader.1.tls.sent = ws.tls.sent := by
  have hfirst := recvExact_sent ws 0 2
  unfold readHeader
  generalize ws.recvExact 0 2 = first at hfirst
  obtain ⟨ws₁, ok⟩ := first
  cases ok with
  | false => exact hfirst
  | true =>
    dsimp only at hfirst ⊢
    split
    · have hmedium := recvExact_sent ws₁ 2 2
      generalize ws₁.recvExact 2 2 = medium at hmedium
      obtain ⟨ws₂, ok₂⟩ := medium
      cases ok₂ with
      | false => exact hmedium.trans hfirst
      | true => exact hmedium.trans hfirst
    · split
      · have hlong := recvExact_sent ws₁ 2 8
        generalize ws₁.recvExact 2 8 = long at hlong
        obtain ⟨ws₂, ok₂⟩ := long
        cases ok₂ with
        | false => exact hlong.trans hfirst
        | true => exact hlong.trans hfirst
      · exact hfirst

theorem readMask_front (ws : WebSocket) (masked : Bool) :
    ∃ tls, ws.readMask masked = ({ ws with tls },
        if maskLen masked ≤ ws.tls.incoming.length then some (frontKey masked ws.tls.incoming)
        else none) ∧
      tls.incoming = ws.tls.incoming.drop (maskLen masked) ∧ tls.sent = ws.tls.sent := by
  unfold readMask maskLen frontKey
  cases masked with
  | false => exact ⟨ws.tls, rfl, rfl, rfl⟩
  | true =>
    have hsent := ws.tls.recvExact_sent 4
    obtain ⟨tls, hrecv, hdrop⟩ := ws.tls.recvExact_take 4
    rw [hrecv] at hsent ⊢
    refine ⟨tls, ?_, hdrop, hsent⟩
    simp only [if_true, List.length_take]
    by_cases hlen : 4 ≤ ws.tls.incoming.length
    · rw [if_pos hlen, if_pos (by omega)]
    · rw [if_neg hlen, if_neg (by omega)]

theorem readPayload_front (ws : WebSocket) (h : FrameHeader) :
    ∃ tls recvBuf, ws.readPayload h =
        ({ ws with tls, recvBuf }, decide (h.payloadLen ≤ ws.tls.incoming.length)) ∧
      tls.sent = ws.tls.sent ∧
      (h.payloadLen ≤ ws.tls.incoming.length →
        slice recvBuf h.offset h.payloadLen = ws.tls.incoming.take h.payloadLen) := by
  unfold readPayload
  by_cases hpos : h.payloadLen > 0
  · rw [if_pos hpos]
    have hsent := recvExact_sent ws h.offset h.payloadLen
    obtain ⟨tls, recvBuf, hrecv, -, hslice, -⟩ := ws.recvExact_block h.offset h.payloadLen
    rw [hrecv] at hsent ⊢
    exact ⟨tls, recvBuf, rfl, hsent, hslice⟩
  · obtain hzero : h.payloadLen = 0 := by omega
    rw [if_neg hpos, hzero]
    exact ⟨ws.tls, ws.recvBuf, by simp, rfl, fun _ => rfl⟩

/-- The mask is taken off in place. -/
theorem unmask_front {recvBuf : Memory} {h : FrameHeader} {body : List UInt8}
    (key : List UInt8) (hslice : slice recvBuf h.offset h.payloadLen = body) :
    slice (if h.masked ∧ h.payloadLen > 0 then maskAt recvBuf h.offset h.payloadLen key
        else recvBuf) h.offset h.payloadLen =
      if h.masked then applyMask key body else body := by
  cases hmasked : h.masked with
  | false =>
    rw [if_neg (by simp), if_neg Bool.false_ne_true]
    exact hslice
  | true =>
    rw [if_pos rfl]
    by_cases hpos : h.payloadLen > 0
    · rw [if_pos ⟨rfl, hpos⟩, slice_maskAt, hslice]
    · have hzero : h.payloadLen = 0 := by omega
      rw [if_neg (fun hboth => hpos hboth.2), ← hslice, hzero]
      rfl

/-- A pong for every ping that a control frame can carry, and nothing else. -/
theorem sendControlFrame_answer (ws : WebSocket) (payload : List UInt8) :
    let ws' := (ws.sendControlFrame 0xA payload).1
    ∃ ps : List ControlPayload,
      ps = (if h : payload.length ≤ 125 then some (⟨payload, h⟩ : ControlPayload) else none).toList ∧
      ws'.tls.sent = ws.tls.sent ++ pongs ws.rand ws.randCalls ps ∧ ws'.rand = ws.rand ∧
      ws'.randCalls = ws.randCalls + ps.length := by
  intro ws'
  refine ⟨_, rfl, ?_⟩
  by_cases hshort : payload.length ≤ 125
  · rw [dif_pos hshort]
    have hsent := sendControlFrame_pong ws hshort
    refine ⟨hsent, ?_, ?_⟩
    · change (ws.sendControlFrame 0xA payload).1.rand = _
      rw [sendControlFrame, if_neg (by omega)]
    · change (ws.sendControlFrame 0xA payload).1.randCalls = _
      rw [sendControlFrame, if_neg (by omega)]
      rfl
  · have hsame : ws' = ws := by
      change (ws.sendControlFrame 0xA payload).1 = ws
      rw [sendControlFrame, if_pos (by omega)]
    rw [dif_neg hshort, hsame]
    exact ⟨(List.append_nil _).symm, rfl, rfl⟩

/-- What a call does, as the stream says. -/
structure Follows (ws : WebSocket) (after : WebSocket × Option WebSocketFrame) : Prop where
  result : after.2 = returnedFrame ws.tls.incoming
  sent : after.1.tls.sent = ws.tls.sent ++
    pongs ws.rand ws.randCalls (answeredPing ws.tls.incoming).toList
  rand : after.1.rand = ws.rand
  randCalls : after.1.randCalls = ws.randCalls + (answeredPing ws.tls.incoming).toList.length

/-- A call that finds no whole frame returns nothing and sends nothing. -/
theorem Follows.of_none {ws ws' : WebSocket} (hfront : frontFrame ws.tls.incoming = none)
    (hsent : ws'.tls.sent = ws.tls.sent) (hrand : ws'.rand = ws.rand)
    (hcalls : ws'.randCalls = ws.randCalls) : Follows ws (ws', none) := by
  have hanswer : answeredPing ws.tls.incoming = none := by
    rw [answeredPing, hfront]
  refine ⟨?_, ?_, hrand, ?_⟩
  · rw [returnedFrame, hfront]
  · rw [hanswer]
    exact hsent.trans (List.append_nil _).symm
  · rw [hanswer]
    exact hcalls

theorem Follows.of_some {ws ws' : WebSocket} {f : WebSocketFrame}
    (hfront : frontFrame ws.tls.incoming = some f) (hsent : ws'.tls.sent = ws.tls.sent)
    (hrand : ws'.rand = ws.rand) (hcalls : ws'.randCalls = ws.randCalls) :
    Follows ws (if f.opcode = 0x9 then ((ws'.sendControlFrame 0xA f.payload).1, none)
      else (ws', some f)) := by
  by_cases hping : f.opcode = 0x9
  · have hanswer : answeredPing ws.tls.incoming =
        if h : f.payload.length ≤ 125 then some (⟨f.payload, h⟩ : ControlPayload) else none := by
      simp only [answeredPing, hfront]
      rw [if_pos hping]
    obtain ⟨ps, hps, hsent', hrand', hcalls'⟩ := sendControlFrame_answer ws' f.payload
    rw [if_pos hping]
    rw [← hanswer] at hps
    subst hps
    refine ⟨?_, ?_, hrand'.trans hrand, ?_⟩
    · simp only [returnedFrame, hfront]
      rw [if_pos hping]
    · rw [← hsent, ← hrand, ← hcalls]
      exact hsent'
    · rw [← hcalls]
      exact hcalls'
  · have hanswer : answeredPing ws.tls.incoming = none := by
      simp only [answeredPing, hfront]
      rw [if_neg hping]
    rw [if_neg hping]
    refine ⟨?_, ?_, hrand, ?_⟩
    · simp only [returnedFrame, hfront]
      rw [if_neg hping]
    · rw [hanswer]
      exact hsent.trans (List.append_nil _).symm
    · rw [hanswer]
      exact hcalls

theorem readFrame_follows (ws : WebSocket) : Follows ws ws.readFrame := by
  have hsent := ws.readHeader_sent
  obtain ⟨tls, recvBuf, hread, hrest, -⟩ := ws.readHeader_stream
  rw [hread] at hsent
  dsimp only at hsent
  unfold afterHeader at hrest
  unfold readFrame
  rw [hread]
  cases hheader : streamHeader ws.tls.incoming with
  | none =>
    refine .of_none ?_ hsent rfl rfl
    rw [frontFrame, hheader]
  | some h =>
    rw [hheader] at hrest
    obtain ⟨-, hoffset⟩ := streamHeader_offset hheader
    dsimp only at hrest ⊢
    have hlength : tls.incoming.length = ws.tls.incoming.length - h.offset := by
      rw [hrest, List.length_drop]
    have hfront : frontFrame ws.tls.incoming =
        if h.payloadLen ≤ maxFrameSize ∧
          h.offset + maskLen h.masked + h.payloadLen ≤ ws.tls.incoming.length then
          some ⟨h.fin, h.opcode, frontPayload h ws.tls.incoming⟩ else none := by
      simp only [frontFrame, hheader]
    by_cases hlimit : h.payloadLen > maxFrameSize
    · rw [if_pos hlimit]
      refine .of_none ?_ hsent rfl rfl
      rw [hfront, if_neg (by omega)]
    rw [if_neg hlimit]
    obtain ⟨tls₁, hmask, hrest₁, hsent₁⟩ := readMask_front { ws with tls, recvBuf } h.masked
    dsimp only at hrest₁ hsent₁
    rw [hmask]
    by_cases hkey : maskLen h.masked ≤ tls.incoming.length
    · rw [if_pos hkey]
      obtain ⟨tls₂, recvBuf₂, hpayload, hsent₂, hslice⟩ :=
        readPayload_front { ws with tls := tls₁, recvBuf } h
      dsimp only at hsent₂ hslice ⊢
      rw [hpayload]
      by_cases hbody : h.payloadLen ≤ tls₁.incoming.length
      · rw [decide_eq_true hbody]
        dsimp only
        have hunmask := unmask_front (frontKey h.masked tls.incoming) (hslice hbody)
        have hfront' := hfront
        rw [if_pos ⟨by omega, by rw [hrest₁, List.length_drop] at hbody; omega⟩] at hfront'
        have hpayload' : frontPayload h ws.tls.incoming =
            if h.masked then applyMask (frontKey h.masked tls.incoming)
              (tls₁.incoming.take h.payloadLen) else tls₁.incoming.take h.payloadLen := by
          rw [frontPayload, hrest₁, hrest, List.drop_drop]
        rw [hpayload', ← hunmask] at hfront'
        exact .of_some hfront' (hsent₂.trans (hsent₁.trans hsent)) rfl rfl
      · rw [decide_eq_false hbody]
        refine .of_none ?_ (hsent₂.trans (hsent₁.trans hsent)) rfl rfl
        rw [hfront, if_neg]
        rw [hrest₁, List.length_drop] at hbody
        omega
    · rw [if_neg hkey]
      refine .of_none ?_ (hsent₁.trans hsent) rfl rfl
      rw [hfront, if_neg (by omega)]

/-! ### Runs -/

/-- Repeated calls do what the stream says, whatever the stream. -/
theorem readFrames_follows (ws : WebSocket) (calls : ℕ) :
    (ws.readFrames calls).2 = returnedFrames calls ws.tls.incoming ∧
      (ws.readFrames calls).1.tls.sent = ws.tls.sent ++
        pongs ws.rand ws.randCalls (answeredPings calls ws.tls.incoming) := by
  induction calls generalizing ws with
  | zero => exact ⟨rfl, (List.append_nil _).symm⟩
  | succ calls ih =>
    have hcall := readFrame_follows ws
    obtain ⟨hframes, hsent⟩ := ih ws.readFrame.1
    rw [(readFrame_stream ws).1] at hframes hsent
    constructor
    · change ws.readFrame.2 :: (ws.readFrame.1.readFrames calls).2 = _
      rw [hcall.result, hframes]
      rfl
    · rw [readFrames_succ, hsent, hcall.sent, hcall.rand, hcall.randCalls, List.append_assoc,
        ← pongs_append]
      rfl

end WebSocket

namespace MarketDataIngester

open WebSocket

/-- The payload that the loop hands to the parser, if the frame is a binary one. -/
def binaryPayload (frame : Option WebSocketFrame) : Option (List UInt8) :=
  frame.bind (fun f => if f.opcode = 0x2 then some f.payload else none)

/-- The loop reads frame after frame and parses the binary ones. -/
theorem receiveLoop_eq (parser : SBEVenueParser) (turns : ℕ) (tsc : ℕ → ℕ → UInt64)
    (ws : WebSocket) :
    receiveLoop parser turns tsc ws =
      ((ws.readFrames turns).1,
        parsePayloads parser tsc ((ws.readFrames turns).2.filterMap binaryPayload)) := by
  induction turns generalizing tsc ws with
  | zero => rfl
  | succ turns ih =>
    have hframes : (ws.readFrames (turns + 1)).2 =
        ws.readFrame.2 :: (ws.readFrame.1.readFrames turns).2 := rfl
    rw [hframes, readFrames_succ]
    unfold receiveLoop
    generalize ws.readFrame = after
    obtain ⟨ws', frame⟩ := after
    cases frame with
    | none => exact ih tsc ws'
    | some f =>
      dsimp only
      by_cases hbinary : f.opcode = 0x2
      · have hpayload : binaryPayload (some f) = some f.payload := if_pos hbinary
        rw [if_pos hbinary, ih, List.filterMap_cons_some hpayload]
        rfl
      · have hpayload : binaryPayload (some f) = none := if_neg hbinary
        rw [if_neg hbinary, ih, List.filterMap_cons_none hpayload]

/-- Whatever bytes the server sends, in whatever pieces and whatever the receive buffer holds: all
that the client sends is its request and, behind an upgrade, one final masked pong for each whole
ping of at most 125 bytes, with the bytes of that ping; and what it enqueues are the updates of the
whole binary frames. Both are functions of the bytes behind the first piece. -/
theorem startReceiving_any_stream (parser : SBEVenueParser) (turns : ℕ) (tsc : ℕ → ℕ → UInt64)
    (connects : Bool) (texts : HandshakeTexts) (path protocol stream : List UInt8)
    (chunks : ℕ → ℕ) (recvBuf : Memory) (rand : ℕ → Fin 4 → UInt8) :
    let after := startReceiving parser turns tsc connects texts path protocol
      (connected stream chunks recvBuf rand)
    let rest := stream.drop (firstPiece chunks stream)
    after.1.tls.sent =
        (if connects then
          handshakeRequest texts path protocol ::
            (if Upgraded chunks stream then pongs rand 0 (answeredPings turns rest) else [])
        else []) ∧
      after.2 =
        if connects ∧ Upgraded chunks stream then
          parsePayloads parser tsc ((returnedFrames turns rest).filterMap binaryPayload)
        else [] := by
  intro after rest
  cases connects with
  | false => exact ⟨rfl, rfl⟩
  | true =>
    have hshake := performHandshake_eq_true_iff stream chunks recvBuf rand texts path protocol
    have hrest := (performHandshake_stream stream chunks recvBuf rand texts path protocol).2
    have hsent : ((connected stream chunks recvBuf rand).performHandshake texts path
        protocol).1.tls.sent = [handshakeRequest texts path protocol] := rfl
    have hrand : ((connected stream chunks recvBuf rand).performHandshake texts path
        protocol).1.rand = rand := rfl
    have hcalls : ((connected stream chunks recvBuf rand).performHandshake texts path
        protocol).1.randCalls = 0 := rfl
    have hafter : after = _ := if_pos rfl
    rw [hafter]
    generalize (connected stream chunks recvBuf rand).performHandshake texts path protocol =
      handshake at hshake hrest hsent hrand hcalls
    obtain ⟨ws, ok⟩ := handshake
    dsimp only at hshake hrest hsent hrand hcalls
    cases ok with
    | false =>
      have hno : ¬ Upgraded chunks stream := fun h => Bool.false_ne_true (hshake.mpr h)
      rw [if_pos rfl, if_neg hno, if_neg (fun h => hno h.2)]
      exact ⟨hsent, rfl⟩
    | true =>
      have hyes : Upgraded chunks stream := hshake.mp rfl
      obtain ⟨hframes, hpongs⟩ := readFrames_follows ws turns
      rw [if_pos rfl, if_pos hyes, if_pos ⟨rfl, hyes⟩]
      dsimp only
      rw [receiveLoop_eq, hframes, hrest]
      refine ⟨?_, rfl⟩
      dsimp only
      rw [hpongs, hsent, hrand, hcalls, hrest]
      rfl

end MarketDataIngester

end HftSystem
