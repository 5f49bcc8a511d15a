import HftSystem.WebSocket
import Mathlib.Data.List.OfFn

/-!
Frames as RFC 6455 lays them out, and the frame reader on a stream of them. Every
frame that fits the receive buffer is read back, however the transport cuts the
stream, and every ping is answered. A frame whose payload exceeds the limit is
left in the middle.
-/
namespace HftSystem.WebSocket

open ByteMemory ByteWords

/-! ### Frames -/

inductive LengthForm where
  | short
  | medium
  | long
deriving DecidableEq

/-- The payload lengths that the form can carry. -/
def LengthForm.Carries : LengthForm → ℕ → Prop
  | .short, len => len ≤ 125
  | .medium, len => len < 2 ^ 16
  | .long, len => len < 2 ^ 63

instance (form : LengthForm) (len : ℕ) : Decidable (form.Carries len) :=
  match form with
  | .short => inferInstanceAs (Decidable (len ≤ 125))
  | .medium => inferInstanceAs (Decidable (len < 2 ^ 16))
  | .long => inferInstanceAs (Decidable (len < 2 ^ 63))

structure Frame where
  fin : Bool
  rsv : Fin 8
  opcode : Fin 16
  mask : Option (Fin 4 → UInt8)
  form : LengthForm
  payload : List UInt8
  carried : form.Carries payload.length

def firstByte (fin : Bool) (rsv : Fin 8) (opcode : Fin 16) : UInt8 :=
  UInt8.ofNat (fin.toNat * 128 + rsv.val * 16 + opcode.val)

/-- The mask bit and the seven-bit length, or the mark of a longer form. -/
def secondByte (masked : Bool) (len7 : ℕ) : UInt8 := UInt8.ofNat (masked.toNat * 128 + len7)

namespace Frame

variable (f : Frame)

def len7 : ℕ :=
  match f.form with
  | .short => f.payload.length
  | .medium => 126
  | .long => 127

def extendedLength : List UInt8 :=
  match f.form with
  | .short => []
  | .medium => toBE 2 f.payload.length
  | .long => toBE 8 f.payload.length

/-- The bytes before the mask key. -/
def header : List UInt8 :=
  [firstByte f.fin f.rsv f.opcode, secondByte f.mask.isSome f.len7] ++ f.extendedLength

def maskKey : List UInt8 :=
  match f.mask with
  | none => []
  | some key => List.ofFn key

/-- The payload as it stands on the wire. -/
def sentPayload : List UInt8 :=
  match f.mask with
  | none => f.payload
  | some key => applyMask (List.ofFn key) f.payload

def encode : List UInt8 := f.header ++ f.maskKey ++ f.sentPayload

def isPing : Bool := f.opcode = 9

/-- What `read_frame` is to return for the frame. -/
def result : Option WebSocketFrame :=
  if f.isPing then none else some ⟨f.fin, UInt8.ofNat f.opcode.val, f.payload⟩

end Frame

/-! ### The header bytes -/

theorem firstByte_bits : ∀ (fin : Bool) (rsv : Fin 8) (opcode : Fin 16),
    (decide (firstByte fin rsv opcode &&& 0x80 ≠ 0) = fin) ∧
      firstByte fin rsv opcode &&& 0x0F = UInt8.ofNat opcode.val := by
  decide +kernel

theorem secondByte_bits : ∀ (masked : Bool) (len7 : Fin 128),
    (decide (secondByte masked len7.val &&& 0x80 ≠ 0) = masked) ∧
      (secondByte masked len7.val &&& 0x7F).toNat = len7.val := by
  decide +kernel

theorem opcode_eq_ping : ∀ opcode : Fin 16, UInt8.ofNat opcode.val = 0x9 ↔ opcode = 9 := by
  decide +kernel

namespace Frame

variable (f : Frame)

theorem len7_lt : f.len7 < 128 := by
  have hcarried := f.carried
  unfold len7
  cases hform : f.form with
  | short =>
    rw [hform] at hcarried
    exact lt_of_le_of_lt hcarried (by decide)
  | medium => exact (by decide : 126 < 128)
  | long => exact (by decide : 127 < 128)

theorem length_header : f.header.length = 2 + f.extendedLength.length := by
  simp [header]
  omega

end Frame

/-- The header that the reader makes of the frame. -/
def Frame.frameHeader (f : Frame) : FrameHeader where
  fin := f.fin
  opcode := UInt8.ofNat f.opcode.val
  masked := f.mask.isSome
  payloadLen := f.payload.length
  offset := f.header.length

/-- The extended length of w bytes at offset 2 is read back. -/
theorem extendedLength_read (ws : WebSocket) {w n : ℕ} {rest : List UInt8} (hn : n < 256 ^ w)
    (hincoming : ws.tls.incoming = toBE w n ++ rest) :
    ∃ tls recvBuf, ws.recvExact 2 w = ({ ws with tls, recvBuf }, true) ∧
      ofBE (slice recvBuf 2 w) = n ∧ TLSClient.Received ws.tls tls rest := by
  obtain ⟨tls, hrecv, hreceived⟩ := recvExact_received 2 (length_toBE w n) hincoming
  refine ⟨tls, _, hrecv, ?_, hreceived⟩
  have hslice := slice_writeAt ws.recvBuf 2 (toBE w n)
  rw [length_toBE] at hslice
  rw [hslice, ofBE_toBE, Nat.mod_eq_of_lt hn]

theorem readHeader_frame {ws : WebSocket} {f : Frame} {rest : List UInt8}
    (hincoming : ws.tls.incoming = f.header ++ rest) :
    ∃ tls recvBuf, ws.readHeader = ({ ws with tls, recvBuf }, some f.frameHeader) ∧
      TLSClient.Received ws.tls tls rest := by
  rw [Frame.header, List.append_assoc] at hincoming
  have hfixed : [firstByte f.fin f.rsv f.opcode, secondByte f.mask.isSome f.len7].length = 2 := rfl
  obtain ⟨tls, hrecv, hreceived⟩ := recvExact_received 0 hfixed hincoming
  obtain ⟨hfin, hopcode⟩ := firstByte_bits f.fin f.rsv f.opcode
  obtain ⟨hmasked, hlen7⟩ := secondByte_bits f.mask.isSome ⟨f.len7, f.len7_lt⟩
  have hbyte1 : writeAt ws.recvBuf 0 [firstByte f.fin f.rsv f.opcode,
      secondByte f.mask.isSome f.len7] 0 = firstByte f.fin f.rsv f.opcode := rfl
  have hbyte2 : writeAt ws.recvBuf 0 [firstByte f.fin f.rsv f.opcode,
      secondByte f.mask.isSome f.len7] 1 = secondByte f.mask.isSome f.len7 := rfl
  have hcarried := f.carried
  unfold readHeader
  rw [hrecv]
  simp only [hbyte1, hbyte2, hfin, hopcode, hmasked, hlen7]
  have hlength := f.length_header
  unfold Frame.frameHeader
  unfold Frame.extendedLength at hreceived hlength
  unfold Frame.len7
  cases hform : f.form with
  | short =>
    rw [hform] at hcarried hreceived hlength
    have hle : f.payload.length ≤ 125 := hcarried
    simp only
    rw [if_neg (by omega), if_neg (by omega), hlength]
    exact ⟨tls, _, rfl, hreceived⟩
  | medium =>
    rw [hform] at hcarried hreceived hlength
    dsimp only
    rw [if_pos rfl]
    obtain ⟨tls', recvBuf, hrecv', hread, hreceived'⟩ :=
      extendedLength_read { ws with tls, recvBuf := _ } (w := 2) hcarried hreceived.incoming
    rw [hrecv']
    dsimp only
    rw [hread, hlength, length_toBE]
    exact ⟨tls', recvBuf, rfl, hreceived.trans hreceived'⟩
  | long =>
    rw [hform] at hcarried hreceived hlength
    have hlt : f.payload.length < 256 ^ 8 := lt_trans hcarried (by decide)
    dsimp only
    rw [if_neg (by decide), if_pos rfl]
    obtain ⟨tls', recvBuf, hrecv', hread, hreceived'⟩ :=
      extendedLength_read { ws with tls, recvBuf := _ } (w := 8) hlt hreceived.incoming
    rw [hrecv']
    dsimp only
    rw [hread, hlength, length_toBE]
    exact ⟨tls', recvBuf, rfl, hreceived.trans hreceived'⟩

/-! ### The rest of the frame -/

theorem Frame.length_sentPayload (f : Frame) : f.sentPayload.length = f.payload.length := by
  unfold Frame.sentPayload
  cases f.mask with
  | none => rfl
  | some key => exact length_applyMask _ _

/-- The key that the reader keeps: zero bytes for a frame without a mask. -/
def Frame.keptKey (f : Frame) : List UInt8 :=
  match f.mask with
  | none => [0, 0, 0, 0]
  | some key => List.ofFn key

theorem readMask_frame (ws : WebSocket) {f : Frame} {rest : List UInt8}
    (hincoming : ws.tls.incoming = f.maskKey ++ rest) :
    ∃ tls, ws.readMask f.mask.isSome = ({ ws with tls }, some f.keptKey) ∧
      TLSClient.Received ws.tls tls rest := by
  unfold Frame.maskKey at hincoming
  unfold Frame.keptKey readMask
  cases hmask : f.mask with
  | none =>
    rw [hmask] at hincoming
    exact ⟨ws.tls, rfl, hincoming, rfl, rfl⟩
  | some key =>
    rw [hmask] at hincoming
    have hlength : (List.ofFn key).length = 4 := List.length_ofFn
    obtain ⟨tls, hrecv, hreceived⟩ := TLSClient.recvExact_received hlength hincoming
    refine ⟨tls, ?_, hreceived⟩
    rw [hrecv]
    simp

theorem readPayload_frame (ws : WebSocket) {f : Frame} {rest : List UInt8}
    (hincoming : ws.tls.incoming = f.sentPayload ++ rest) :
    ∃ tls recvBuf, ws.readPayload f.frameHeader = ({ ws with tls, recvBuf }, true) ∧
      slice recvBuf f.header.length f.payload.length = f.sentPayload ∧
      TLSClient.Received ws.tls tls rest := by
  have hlength := f.length_sentPayload
  unfold readPayload Frame.frameHeader
  by_cases hpos : f.payload.length > 0
  · obtain ⟨tls, hrecv, hreceived⟩ :=
      recvExact_received f.header.length hlength hincoming
    have hslice := slice_writeAt ws.recvBuf f.header.length f.sentPayload
    rw [hlength] at hslice
    rw [if_pos hpos]
    exact ⟨tls, _, hrecv, hslice, hreceived⟩
  · have hzero : f.payload.length = 0 := by omega
    have hnil : f.sentPayload = [] := List.length_eq_zero_iff.mp (hlength.trans hzero)
    rw [hnil] at hincoming
    rw [if_neg hpos, hzero, hnil]
    exact ⟨ws.tls, ws.recvBuf, rfl, rfl, hincoming, rfl, rfl⟩

/-- The mask is taken off in place. -/
theorem unmask_frame {recvBuf : Memory} {f : Frame}
    (hslice : slice recvBuf f.header.length f.payload.length = f.sentPayload) :
    slice (if f.mask.isSome ∧ f.payload.length > 0 then
        maskAt recvBuf f.header.length f.payload.length f.keptKey else recvBuf)
      f.header.length f.payload.length = f.payload := by
  unfold Frame.sentPayload at hslice
  unfold Frame.keptKey
  cases hmask : f.mask with
  | none =>
    rw [hmask] at hslice
    exact hslice
  | some key =>
    rw [hmask] at hslice
    by_cases hpos : f.payload.length > 0
    · rw [if_pos ⟨rfl, hpos⟩, slice_maskAt, hslice, applyMask_applyMask]
    · have hnil : f.payload = [] := List.length_eq_zero_iff.mp (by omega)
      rw [hnil]
      rfl

/-- A frame within the limit is read whole, whatever follows it in the stream. -/
theorem readFrame_frame {ws : WebSocket} {f : Frame} {rest : List UInt8}
    (hlen : f.payload.length ≤ maxFrameSize) (hincoming : ws.tls.incoming = f.encode ++ rest) :
    ∃ ws' : WebSocket, TLSClient.Received ws.tls ws'.tls rest ∧
      ws.readFrame =
        (if f.isPing then (ws'.sendControlFrame 0xA f.payload).1 else ws', f.result) := by
  rw [Frame.encode, List.append_assoc, List.append_assoc] at hincoming
  obtain ⟨tls, recvBuf, hheader, hreceived⟩ := readHeader_frame hincoming
  obtain ⟨tls₁, hmask, hreceived₁⟩ :=
    readMask_frame { ws with tls, recvBuf } hreceived.incoming
  obtain ⟨tls₂, recvBuf₂, hpayload, hslice, hreceived₂⟩ :=
    readPayload_frame { ws with tls := tls₁, recvBuf } hreceived₁.incoming
  have hunmask := unmask_frame hslice
  generalize hbuf : (if f.mask.isSome ∧ f.payload.length > 0 then
    maskAt recvBuf₂ f.header.length f.payload.length f.keptKey else recvBuf₂) = recvBuf₃ at hunmask
  refine ⟨{ ws with tls := tls₂, recvBuf := recvBuf₃ },
    (hreceived.trans hreceived₁).trans hreceived₂, ?_⟩
  rw [readFrame, hheader]
  dsimp only [Frame.frameHeader] at hmask hpayload ⊢
  rw [if_neg (by omega), hmask]
  dsimp only
  rw [hpayload]
  dsimp only
  rw [hbuf, hunmask]
  unfold Frame.result Frame.isPing
  by_cases hping : f.opcode = 9
  · rw [if_pos ((opcode_eq_ping f.opcode).mpr hping), if_pos (decide_eq_true hping),
      if_pos (decide_eq_true hping)]
  · have hfalse : ¬ decide (f.opcode = 9) = true := by rwa [decide_eq_true_eq]
    rw [if_neg (fun h => hping ((opcode_eq_ping f.opcode).mp h)), if_neg hfalse, if_neg hfalse]

/-! ### The answers to pings -/

/-- A final pong frame, masked with the key. -/
def pong (key : Fin 4 → UInt8) (payload : List UInt8) (h : payload.length ≤ 125) : Frame where
  fin := true
  rsv := 0
  opcode := 10
  mask := some key
  form := .short
  payload := payload
  carried := h

theorem pong_lengthByte : ∀ len : Fin 126,
    0x80 ||| UInt8.ofNat len.val = secondByte true len.val := by
  decide +kernel

theorem sendControlFrame_pong (ws : WebSocket) {payload : List UInt8} (h : payload.length ≤ 125) :
    (ws.sendControlFrame 0xA payload).1.tls.sent =
      ws.tls.sent ++ [(pong (ws.rand ws.randCalls) payload h).encode] := by
  have hfirst : (0x80 ||| (0xA &&& 0x0F) : UInt8) = firstByte true 0 10 := by decide
  have hsecond := pong_lengthByte ⟨payload.length, by omega⟩
  rw [sendControlFrame, if_neg (by omega)]
  dsimp only at hsecond ⊢
  rw [hfirst, hsecond]
  rfl

@[simp] theorem sendControlFrame_incoming (ws : WebSocket) (opcode : UInt8) (payload : List UInt8) :
    (ws.sendControlFrame opcode payload).1.tls.incoming = ws.tls.incoming := by
  unfold sendControlFrame
  split
  · rfl
  · rfl

@[simp] theorem sendControlFrame_recvFailed (ws : WebSocket) (opcode : UInt8)
    (payload : List UInt8) :
    (ws.sendControlFrame opcode payload).1.tls.recvFailed = ws.tls.recvFailed := by
  unfold sendControlFrame
  split
  · rfl
  · rfl

/-- One final masked pong for each ping among the frames, in order and with its payload. -/
structure Answers (fs pongs : List Frame) : Prop where
  payloads : pongs.map Frame.payload = (fs.filter Frame.isPing).map Frame.payload
  fin : ∀ p ∈ pongs, p.fin = true
  opcode : ∀ p ∈ pongs, p.opcode = 10
  masked : ∀ p ∈ pongs, p.mask.isSome

theorem Answers.nil : Answers [] [] := ⟨rfl, by simp, by simp, by simp⟩

theorem Answers.cons_pong {f : Frame} {fs pongs : List Frame} (hping : f.isPing = true)
    (hlen : f.payload.length ≤ 125) (key : Fin 4 → UInt8) (h : Answers fs pongs) :
    Answers (f :: fs) (pong key f.payload hlen :: pongs) := by
  refine ⟨?_, ?_, ?_, ?_⟩
  · rw [List.filter_cons_of_pos hping, List.map_cons, List.map_cons, h.payloads]
    rfl
  · exact List.forall_mem_cons.mpr ⟨rfl, h.fin⟩
  · exact List.forall_mem_cons.mpr ⟨rfl, h.opcode⟩
  · exact List.forall_mem_cons.mpr ⟨rfl, h.masked⟩

theorem Answers.cons_other {f : Frame} {fs pongs : List Frame} (hping : ¬ f.isPing = true)
    (h : Answers fs pongs) : Answers (f :: fs) pongs :=
  ⟨by rw [List.filter_cons_of_neg hping, h.payloads], h.fin, h.opcode, h.masked⟩

/-! ### Streams of frames -/

/-- Every sequence of frames that fit the receive buffer is read back, in whatever pieces
the transport returns its bytes, and each ping is answered once. -/
theorem readFrames_frames {ws : WebSocket} (fs : List Frame) {rest : List UInt8}
    (hfit : ∀ f ∈ fs, f.header.length + f.payload.length ≤ maxFrameSize)
    (hping : ∀ f ∈ fs, f.isPing → f.payload.length ≤ 125)
    (hincoming : ws.tls.incoming = fs.flatMap Frame.encode ++ rest) :
    ∃ (ws' : WebSocket) (pongs : List Frame),
      ws.readFrames fs.length = (ws', fs.map Frame.result) ∧ Answers fs pongs ∧
      ws'.tls.sent = ws.tls.sent ++ pongs.map Frame.encode ∧ ws'.tls.incoming = rest ∧
      ws'.tls.recvFailed = ws.tls.recvFailed := by
  induction fs generalizing ws with
  | nil => exact ⟨ws, [], rfl, Answers.nil, (List.append_nil _).symm, hincoming, rfl⟩
  | cons f fs ih =>
    obtain ⟨hfit₀, hfit⟩ := List.forall_mem_cons.mp hfit
    obtain ⟨hping₀, hping⟩ := List.forall_mem_cons.mp hping
    rw [List.flatMap_cons, List.append_assoc] at hincoming
    obtain ⟨ws₁, hreceived, hread⟩ := readFrame_frame (by omega) hincoming
    rw [List.length_cons, readFrames, hread]
    dsimp only
    by_cases hf : f.isPing = true
    · rw [if_pos hf]
      have hlen := hping₀ hf
      have hsent := sendControlFrame_pong ws₁ hlen
      generalize hws₂ : (ws₁.sendControlFrame 0xA f.payload).1 = ws₂ at hsent
      have hincoming₂ : ws₂.tls.incoming = fs.flatMap Frame.encode ++ rest := by
        rw [← hws₂, sendControlFrame_incoming, hreceived.incoming]
      have hfailed : ws₂.tls.recvFailed = ws.tls.recvFailed := by
        rw [← hws₂, sendControlFrame_recvFailed, hreceived.recvFailed]
      obtain ⟨ws', pongs, hrun, hanswers, hsent', hrest, hfailed'⟩ := ih hfit hping hincoming₂
      refine ⟨ws', _, ?_, hanswers.cons_pong hf hlen (ws₁.rand ws₁.randCalls), ?_, hrest,
        hfailed'.trans hfailed⟩
      · rw [hrun, List.map_cons]
      · rw [hsent', hsent, hreceived.sent, List.append_assoc]
        rfl
    · rw [if_neg hf]
      obtain ⟨ws', pongs, hrun, hanswers, hsent', hrest, hfailed'⟩ :=
        ih hfit hping hreceived.incoming
      refine ⟨ws', pongs, ?_, hanswers.cons_other hf, ?_, hrest,
        hfailed'.trans hreceived.recvFailed⟩
      · rw [hrun, List.map_cons]
      · rw [hsent', hreceived.sent]

/-- A reader on a stream from which nothing has been read. -/
def connected (stream : List UInt8) (chunks : ℕ → ℕ) (recvBuf : Memory)
    (rand : ℕ → Fin 4 → UInt8) : WebSocket where
  tls := { incoming := stream, chunks := chunks }
  recvBuf := recvBuf
  rand := rand

/-- An unmasked frame of a binary message, its first one. -/
def binaryFrame (fin : Bool) (form : LengthForm) (payload : List UInt8)
    (h : form.Carries payload.length) : Frame := ⟨fin, 0, 2, none, form, payload, h⟩

/-- An unmasked frame that goes on with a message. -/
def continuationFrame (fin : Bool) (form : LengthForm) (payload : List UInt8)
    (h : form.Carries payload.length) : Frame := ⟨fin, 0, 0, none, form, payload, h⟩

def maskedText : Frame where
  fin := true
  rsv := 0
  opcode := 1
  mask := some fun i => UInt8.ofNat i.val
  form := .short
  payload := [72, 105]
  carried := by decide

def unmaskedPing : Frame where
  fin := true
  rsv := 0
  opcode := 9
  mask := none
  form := .medium
  payload := [7]
  carried := by decide

theorem readFrames_frames_text_ping :
    ∃ (ws' : WebSocket) (pongs : List Frame),
      (connected ([maskedText, unmaskedPing].flatMap Frame.encode ++ []) (fun _ => 1) (fun _ => 0)
          (fun _ _ => 5)).readFrames 2 = (ws', [some ⟨true, 1, [72, 105]⟩, none]) ∧
      Answers [maskedText, unmaskedPing] pongs ∧ ws'.tls.sent = [] ++ pongs.map Frame.encode ∧
      ws'.tls.incoming = [] ∧ ws'.tls.recvFailed = false :=
  readFrames_frames [maskedText, unmaskedPing] (by decide) (by decide) rfl

/-! ### Frame boundaries -/

theorem readFrame_incoming {ws : WebSocket} {f : Frame} {rest : List UInt8}
    (hlen : f.payload.length ≤ maxFrameSize) (hincoming : ws.tls.incoming = f.encode ++ rest) :
    (ws.readFrame).1.tls.incoming = rest ∧
      (ws.readFrame).1.tls.recvFailed = ws.tls.recvFailed := by
  obtain ⟨ws', hreceived, hread⟩ := readFrame_frame hlen hincoming
  rw [hread, ← hreceived.incoming, ← hreceived.recvFailed]
  dsimp only
  split
  · exact ⟨sendControlFrame_incoming _ _ _, sendControlFrame_recvFailed _ _ _⟩
  · exact ⟨rfl, rfl⟩

/-- Of a frame beyond the limit only the header is read. -/
theorem readFrame_oversized {ws : WebSocket} {f : Frame} {rest : List UInt8}
    (hlen : ¬ f.payload.length ≤ maxFrameSize) (hincoming : ws.tls.incoming = f.encode ++ rest) :
    (ws.readFrame).1.tls.incoming = f.maskKey ++ f.sentPayload ++ rest ∧
      (ws.readFrame).1.tls.recvFailed = ws.tls.recvFailed := by
  rw [Frame.encode, List.append_assoc, List.append_assoc] at hincoming
  obtain ⟨tls, recvBuf, hheader, hreceived⟩ := readHeader_frame hincoming
  rw [readFrame, hheader]
  dsimp only [Frame.frameHeader]
  rw [if_pos (by omega), List.append_assoc]
  exact ⟨hreceived.incoming, hreceived.recvFailed⟩

theorem readFrames_succ (ws : WebSocket) (calls : ℕ) :
    (ws.readFrames (calls + 1)).1 = ((ws.readFrame).1.readFrames calls).1 := rfl

theorem readFrames_one (ws : WebSocket) : (ws.readFrames 1).1 = (ws.readFrame).1 := rfl

theorem readFrames_empty {ws : WebSocket} (hincoming : ws.tls.incoming = []) (calls : ℕ) :
    (ws.readFrames (calls + 1)).1.tls.recvFailed = true := by
  obtain ⟨hempty, hfailed, -⟩ := readFrame_empty hincoming
  induction calls generalizing ws with
  | zero => exact hfailed
  | succ calls ih =>
    obtain ⟨hempty', hfailed', -⟩ := readFrame_empty hempty
    rw [readFrames_succ]
    exact ih hempty hempty' hfailed'

/-- The number of bytes is the total length of a whole number of the frames. -/
def AtBoundary (fs : List Frame) (consumed : ℕ) : Prop :=
  ∃ j ≤ fs.length, consumed = ((fs.take j).flatMap Frame.encode).length

def consumed (ws ws' : WebSocket) : ℕ := ws.tls.incoming.length - ws'.tls.incoming.length

/-- After any number of calls of `read_frame`, as long as no `recv` has failed. -/
def StaysOnBoundaries (ws : WebSocket) (fs : List Frame) : Prop :=
  ∀ calls, (ws.readFrames calls).1.tls.recvFailed = false →
    AtBoundary fs (consumed ws (ws.readFrames calls).1)

/-- A run over frames within the limit has read a whole number of them. -/
theorem readFrames_whole {ws : WebSocket} {fs : List Frame}
    (hlen : ∀ f ∈ fs, f.payload.length ≤ maxFrameSize)
    (hincoming : ws.tls.incoming = fs.flatMap Frame.encode) (calls : ℕ)
    (hok : (ws.readFrames calls).1.tls.recvFailed = false) :
    ∃ j ≤ fs.length,
      (ws.readFrames calls).1.tls.incoming = (fs.drop j).flatMap Frame.encode := by
  induction calls generalizing ws fs with
  | zero => exact ⟨0, Nat.zero_le _, hincoming⟩
  | succ calls ih =>
    cases fs with
    | nil =>
      rw [readFrames_empty hincoming calls] at hok
      contradiction
    | cons f fs =>
      obtain ⟨hlen₀, hlen⟩ := List.forall_mem_cons.mp hlen
      rw [List.flatMap_cons] at hincoming
      obtain ⟨hrest, -⟩ := readFrame_incoming hlen₀ hincoming
      rw [readFrames_succ] at hok ⊢
      obtain ⟨j, hj, hdrop⟩ := ih hlen hrest hok
      exact ⟨j + 1, Nat.succ_le_succ hj, hdrop⟩

/-- A run over frames of which one is beyond the limit comes to stand after its header. -/
theorem readFrames_oversized (ws : WebSocket) {fs : List Frame}
    (hlen : ¬ ∀ f ∈ fs, f.payload.length ≤ maxFrameSize)
    (hincoming : ws.tls.incoming = fs.flatMap Frame.encode) :
    ∃ calls pre f post, fs = pre ++ f :: post ∧ ¬ f.payload.length ≤ maxFrameSize ∧
      (ws.readFrames calls).1.tls.recvFailed = ws.tls.recvFailed ∧
      (ws.readFrames calls).1.tls.incoming =
        f.maskKey ++ f.sentPayload ++ post.flatMap Frame.encode := by
  induction fs generalizing ws with
  | nil => exact absurd (by simp) hlen
  | cons f fs ih =>
    rw [List.flatMap_cons] at hincoming
    by_cases hlen₀ : f.payload.length ≤ maxFrameSize
    · obtain ⟨hrest, hfailed⟩ := readFrame_incoming hlen₀ hincoming
      have hlen' : ¬ ∀ f ∈ fs, f.payload.length ≤ maxFrameSize := by
        intro h
        exact hlen (List.forall_mem_cons.mpr ⟨hlen₀, h⟩)
      obtain ⟨calls, pre, g, post, hsplit, hover, hok, hleft⟩ := ih _ hlen' hrest
      refine ⟨calls + 1, f :: pre, g, post, by rw [hsplit]; rfl, hover, ?_, ?_⟩
      · rw [readFrames_succ, hok, hfailed]
      · rw [readFrames_succ, hleft]
    · obtain ⟨hleft, hfailed⟩ := readFrame_oversized hlen₀ hincoming
      exact ⟨1, [], f, fs, rfl, hlen₀, hfailed, hleft⟩

theorem not_atBoundary (pre post : List Frame) {f : Frame} {n : ℕ}
    (hlower : (pre.flatMap Frame.encode).length < n)
    (hupper : n < (pre.flatMap Frame.encode).length + f.encode.length) :
    ¬ AtBoundary (pre ++ f :: post) n := by
  rintro ⟨j, -, hn⟩
  rw [List.take_append, List.flatMap_append, List.length_append] at hn
  have hpre : ((pre.take j).flatMap Frame.encode).length ≤ (pre.flatMap Frame.encode).length := by
    conv_rhs => rw [← List.take_append_drop j pre, List.flatMap_append, List.length_append]
    omega
  by_cases hj : j ≤ pre.length
  · rw [Nat.sub_eq_zero_of_le hj, List.take_zero, List.flatMap_nil, List.length_nil] at hn
    omega
  · obtain ⟨k, hk⟩ : ∃ k, j - pre.length = k + 1 := ⟨j - pre.length - 1, by omega⟩
    rw [hk, List.take_succ_cons, List.flatMap_cons, List.length_append,
      List.take_of_length_le (by omega)] at hn
    omega

theorem staysOnBoundaries {ws : WebSocket} {fs : List Frame}
    (hlen : ∀ f ∈ fs, f.payload.length ≤ maxFrameSize)
    (hincoming : ws.tls.incoming = fs.flatMap Frame.encode) : StaysOnBoundaries ws fs := by
  intro calls hok
  obtain ⟨j, hj, hleft⟩ := readFrames_whole hlen hincoming calls hok
  have htotal : (fs.flatMap Frame.encode).length = ((fs.take j).flatMap Frame.encode).length +
      ((fs.drop j).flatMap Frame.encode).length := by
    rw [← List.length_append, ← List.flatMap_append, List.take_append_drop]
  refine ⟨j, hj, ?_⟩
  rw [consumed, hleft, hincoming]
  omega

theorem not_staysOnBoundaries {ws : WebSocket} {fs : List Frame}
    (hlen : ¬ ∀ f ∈ fs, f.payload.length ≤ maxFrameSize)
    (hincoming : ws.tls.incoming = fs.flatMap Frame.encode) (hfailed : ws.tls.recvFailed = false) :
    ¬ StaysOnBoundaries ws fs := by
  intro hstays
  obtain ⟨calls, pre, f, post, rfl, hover, hok, hleft⟩ := readFrames_oversized ws hlen hincoming
  have hheader := f.length_header
  have hsent := f.length_sentPayload
  have hpayload : 0 < f.payload.length := by omega
  have hconsumed : consumed ws (ws.readFrames calls).1 =
      (pre.flatMap Frame.encode).length + f.header.length := by
    rw [consumed, hleft, hincoming]
    simp only [List.flatMap_append, List.flatMap_cons, Frame.encode, List.length_append]
    omega
  have hat := hstays calls (hok.trans hfailed)
  rw [hconsumed] at hat
  refine not_atBoundary pre post (by omega) ?_ hat
  rw [Frame.encode, List.length_append, List.length_append]
  omega

/-- The reader stays on frame boundaries exactly on the streams without a frame beyond
the limit. -/
theorem staysOnBoundaries_iff (fs : List Frame) (chunks : ℕ → ℕ) (recvBuf : Memory)
    (rand : ℕ → Fin 4 → UInt8) :
    StaysOnBoundaries (connected (fs.flatMap Frame.encode) chunks recvBuf rand) fs ↔
      ∀ f ∈ fs, f.payload.length ≤ maxFrameSize := by
  constructor
  · intro hstays
    by_contra hlen
    exact not_staysOnBoundaries hlen rfl rfl hstays
  · intro hlen
    exact staysOnBoundaries hlen rfl

def oversized : Frame where
  fin := true
  rsv := 0
  opcode := 2
  mask := none
  form := .medium
  payload := List.replicate 8193 0
  carried := by
    rw [List.length_replicate]
    decide

def oversizedReader : WebSocket :=
  connected ([oversized].flatMap Frame.encode) (fun _ => 8192) (fun _ => 0) (fun _ _ => 0)

theorem length_encode_oversized : oversized.encode.length = 8197 := by
  have hheader : oversized.header.length = 4 := rfl
  have hkey : oversized.maskKey.length = 0 := rfl
  have hsent := oversized.length_sentPayload
  have hpayload : oversized.payload.length = 8193 := List.length_replicate
  rw [Frame.encode, List.length_append, List.length_append]
  omega

/-- One frame with a payload of 8193 bytes: the first call stops behind the 4 bytes of its
header, although no `recv` has failed. -/
theorem oversized_leaves_boundary :
    (oversizedReader.readFrames 1).1.tls.recvFailed = false ∧
      consumed oversizedReader (oversizedReader.readFrames 1).1 = 4 ∧
      ¬ StaysOnBoundaries oversizedReader [oversized] := by
  have hpayload : oversized.payload.length = 8193 := List.length_replicate
  have hover : ¬ oversized.payload.length ≤ maxFrameSize := by
    rw [hpayload]
    decide
  have htotal : oversizedReader.tls.incoming.length = 8197 := by
    dsimp only [oversizedReader, connected]
    rw [List.flatMap_singleton, length_encode_oversized]
  have hincoming : oversizedReader.tls.incoming = oversized.encode ++ [] := rfl
  obtain ⟨hleft, hfailed⟩ := readFrame_oversized hover hincoming
  have hkey : oversized.maskKey = [] := rfl
  have hconsumed : consumed oversizedReader (oversizedReader.readFrames 1).1 = 4 := by
    rw [consumed, readFrames_one, hleft, htotal, List.append_nil, hkey, List.nil_append,
      Frame.length_sentPayload, hpayload]
  have hok : (oversizedReader.readFrames 1).1.tls.recvFailed = false := by
    rw [readFrames_one, hfailed]
    rfl
  refine ⟨hok, hconsumed, ?_⟩
  refine not_staysOnBoundaries ?_ rfl rfl
  intro hlen
  exact hover (hlen oversized List.mem_cons_self)

end HftSystem.WebSocket
