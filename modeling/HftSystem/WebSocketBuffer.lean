import HftSystem.WebSocketFrames

/-!
Where the frame reader writes. The regions of the receive buffer that a call hands
to `recv_exact` and to `mask_payload` depend on the stream alone, and they stay
inside the buffer exactly when the header and the payload fit it together. The
check against the frame limit leaves the header out.
-/
namespace HftSystem

open ByteMemory ByteWords

namespace TLSClient

/-- A reception takes the next bytes of the stream, or all that are left. -/
theorem recvLoop_take {turns : ℕ} (c : TLSClient) {left : ℕ} (hturns : left ≤ turns) :
    (recvLoop turns c left).1 = c.incoming.take left ∧
      (recvLoop turns c left).2.incoming = c.incoming.drop left := by
  induction turns generalizing c left with
  | zero =>
    obtain rfl : left = 0 := by omega
    exact ⟨rfl, rfl⟩
  | succ turns ih =>
    rw [recvLoop]
    by_cases hzero : left = 0
    · rw [if_pos hzero, hzero]
      exact ⟨rfl, rfl⟩
    · rw [if_neg hzero, recv]
      dsimp only
      generalize hn : max 1 (min (c.chunks c.recvCalls) left) = n
      have hle : n ≤ left := by omega
      by_cases hnil : c.incoming.take n = []
      · have hempty : c.incoming = [] := by
          rcases List.take_eq_nil_iff.mp hnil with hn₀ | hempty
          · omega
          · exact hempty
        rw [if_pos hnil, hempty]
        simp
      · rw [if_neg hnil]
        dsimp only
        have hlength : (c.incoming.take n).length = min n c.incoming.length := List.length_take
        obtain ⟨htake, hdrop⟩ := ih { c with
          incoming := c.incoming.drop n
          recvCalls := c.recvCalls + 1
          recvFailed := c.recvFailed || c.incoming.isEmpty }
          (show left - (c.incoming.take n).length ≤ turns by
            have := List.length_pos_iff.mpr hnil
            omega)
        rw [htake, hdrop]
        by_cases hall : n ≤ c.incoming.length
        · have hsum : left = n + (left - (c.incoming.take n).length) := by omega
          constructor
          · conv_rhs => rw [hsum, List.take_add]
          · conv_rhs => rw [hsum, ← List.drop_drop]
        · -- the stream ends within this piece
          have hshort : c.incoming.length ≤ n := by omega
          rw [List.drop_of_length_le hshort, List.take_of_length_le hshort,
            List.take_of_length_le (hshort.trans hle), List.drop_of_length_le (hshort.trans hle)]
          simp

theorem recvExact_take (c : TLSClient) (len : ℕ) :
    ∃ c', c.recvExact len = (c.incoming.take len, c') ∧ c'.incoming = c.incoming.drop len := by
  obtain ⟨htake, hdrop⟩ := recvLoop_take c (le_refl len)
  exact ⟨(c.recvExact len).2, Prod.ext htake rfl, hdrop⟩

end TLSClient

namespace WebSocket

/-! ### The regions of a call -/

/-- The blocks that `readHeader` hands to `recv_exact`. -/
def headerRegions (ws : WebSocket) : List Region :=
  ⟨0, 2⟩ ::
    match ws.recvExact 0 2 with
    | (_, false) => []
    | (ws, true) =>
      let payloadLen := (ws.recvBuf 1 &&& 0x7F).toNat
      if payloadLen = 126 then [⟨2, 2⟩] else if payloadLen = 127 then [⟨2, 8⟩] else []

/-- The block of the payload, once for `recv_exact` and once for `mask_payload`. -/
def payloadRegions (h : FrameHeader) (received : Bool) : List Region :=
  if h.payloadLen > 0 then
    ⟨h.offset, h.payloadLen⟩ :: if received ∧ h.masked then [⟨h.offset, h.payloadLen⟩] else []
  else []

/-- The blocks that `readFrame` hands to `recv_exact` and to `mask_payload`. -/
def regions (ws : WebSocket) : List Region :=
  ws.headerRegions ++
    match ws.readHeader with
    | (_, none) => []
    | (ws, some h) =>
      if h.payloadLen > maxFrameSize then []
      else
        match ws.readMask h.masked with
        | (_, none) => []
        | (ws, some _) => payloadRegions h (ws.readPayload h).2

/-- The blocks of repeated calls. -/
def runRegions : (calls : ℕ) → WebSocket → List Region
  | 0, _ => []
  | calls + 1, ws => ws.regions ++ runRegions calls ws.readFrame.1

/-! ### What the stream says -/

/-- The header at the front of a stream, if the stream holds all of it. -/
def streamHeader (stream : List UInt8) : Option FrameHeader :=
  match stream with
  | byte1 :: byte2 :: rest =>
    let fin := byte1 &&& 0x80 ≠ 0
    let opcode := byte1 &&& 0x0F
    let masked := byte2 &&& 0x80 ≠ 0
    let payloadLen := (byte2 &&& 0x7F).toNat
    if payloadLen = 126 then
      if rest.length < 2 then none else some ⟨fin, opcode, masked, ofBE (rest.take 2), 4⟩
    else if payloadLen = 127 then
      if rest.length < 8 then none else some ⟨fin, opcode, masked, ofBE (rest.take 8), 10⟩
    else some ⟨fin, opcode, masked, payloadLen, 2⟩
  | _ => none

def maskLen (masked : Bool) : ℕ := if masked then 4 else 0

/-- What a call leaves of the stream. -/
def afterFrame (stream : List UInt8) : List UInt8 :=
  match streamHeader stream with
  | none => []
  | some h =>
    if h.payloadLen > maxFrameSize then stream.drop h.offset
    else stream.drop (h.offset + maskLen h.masked + h.payloadLen)

/-- A header that announces a payload within the frame limit announces one that fits the
buffer behind it. A stream that ends within the mask key is not read further. -/
def HeadFits (stream : List UInt8) : Prop :=
  ∀ h, streamHeader stream = some h → h.payloadLen ≤ maxFrameSize →
    h.offset + maskLen h.masked ≤ stream.length → h.offset + h.payloadLen ≤ maxFrameSize

theorem headFits_iff {stream : List UInt8} {h : FrameHeader}
    (hheader : streamHeader stream = some h) :
    HeadFits stream ↔ (h.payloadLen ≤ maxFrameSize →
      h.offset + maskLen h.masked ≤ stream.length → h.offset + h.payloadLen ≤ maxFrameSize) := by
  constructor
  · intro hfits
    exact hfits h hheader
  · intro hfits h' hh'
    rw [hheader] at hh'
    cases hh'
    exact hfits

/-! ### A call follows the stream -/

theorem recvExact_stream (ws : WebSocket) (offset len : ℕ) :
    ∃ tls, ws.recvExact offset len =
        ({ ws with tls, recvBuf := writeAt ws.recvBuf offset (ws.tls.incoming.take len) },
          decide (len ≤ ws.tls.incoming.length)) ∧
      tls.incoming = ws.tls.incoming.drop len := by
  obtain ⟨tls, hrecv, hdrop⟩ := ws.tls.recvExact_take len
  refine ⟨tls, ?_, hdrop⟩
  rw [recvExact, hrecv]
  simp

/-- What the stream keeps behind its header. -/
def afterHeader (stream : List UInt8) : List UInt8 :=
  match streamHeader stream with
  | none => []
  | some h => stream.drop h.offset

theorem recvExact_block (ws : WebSocket) (start len : ℕ) :
    ∃ tls recvBuf, ws.recvExact start len =
        ({ ws with tls, recvBuf }, decide (len ≤ ws.tls.incoming.length)) ∧
      tls.incoming = ws.tls.incoming.drop len ∧
      (len ≤ ws.tls.incoming.length → slice recvBuf start len = ws.tls.incoming.take len) ∧
      ChangedWithin [⟨start, len⟩] ws.recvBuf recvBuf := by
  obtain ⟨tls, hrecv, hrest⟩ := ws.recvExact_stream start len
  refine ⟨tls, _, hrecv, hrest, ?_, ?_⟩
  · intro hlen
    have hslice := slice_writeAt ws.recvBuf start (ws.tls.incoming.take len)
    rwa [List.length_take, min_eq_left hlen] at hslice
  · exact writeAt_changed ws.recvBuf start (List.length_take_le len ws.tls.incoming)

/-- A call that finds less than two bytes. -/
theorem readHeader_short {ws : WebSocket} (hshort : ws.tls.incoming.length < 2) :
    streamHeader ws.tls.incoming = none ∧
    ∃ tls recvBuf, ws.readHeader = ({ ws with tls, recvBuf }, none) ∧ tls.incoming = [] ∧
      ChangedWithin ws.headerRegions ws.recvBuf recvBuf := by
  obtain ⟨tls, recvBuf, hrecv, hrest, -, hchanged⟩ := ws.recvExact_block 0 2
  rw [decide_eq_false (by omega)] at hrecv
  constructor
  · rcases hstream : ws.tls.incoming with - | ⟨byte1, - | ⟨byte2, rest⟩⟩
    · rfl
    · rfl
    · rw [hstream, List.length_cons, List.length_cons] at hshort
      omega
  · refine ⟨tls, recvBuf, by rw [readHeader, hrecv], ?_, ?_⟩
    · rw [hrest, List.drop_of_length_le (by omega)]
    · rw [headerRegions, hrecv]
      exact hchanged

theorem readHeader_stream (ws : WebSocket) :
    ∃ tls recvBuf, ws.readHeader = ({ ws with tls, recvBuf }, streamHeader ws.tls.incoming) ∧
      tls.incoming = afterHeader ws.tls.incoming ∧
      ChangedWithin ws.headerRegions ws.recvBuf recvBuf := by
  rcases Nat.lt_or_ge ws.tls.incoming.length 2 with hshort | hlong
  · obtain ⟨hnone, tls, recvBuf, hread, hrest, hchanged⟩ := readHeader_short hshort
    refine ⟨tls, recvBuf, by rw [hread, hnone], ?_, hchanged⟩
    rw [hrest, afterHeader, hnone]
  obtain ⟨tls, recvBuf, hrecv, hrest, hslice, hchanged⟩ := ws.recvExact_block 0 2
  rw [decide_eq_true hlong] at hrecv
  have hbytes : ws.tls.incoming = recvBuf 0 :: recvBuf 1 :: tls.incoming := by
    rw [hrest]
    conv_lhs => rw [← List.take_append_drop 2 ws.tls.incoming, ← hslice hlong]
    rfl
  unfold readHeader headerRegions afterHeader streamHeader
  rw [hrecv, hbytes]
  dsimp only
  by_cases hmedium : (recvBuf 1 &&& 0x7F).toNat = 126
  · simp only [if_pos hmedium]
    obtain ⟨tls', recvBuf', hrecv', hrest', hslice', hchanged'⟩ :=
      recvExact_block { ws with tls, recvBuf } 2 2
    dsimp only at hrecv' hrest' hslice' hchanged'
    rw [hrecv']
    by_cases hlen : tls.incoming.length < 2
    · rw [if_pos hlen, decide_eq_false (by omega)]
      refine ⟨tls', recvBuf', rfl, ?_, hchanged.append hchanged'⟩
      rw [hrest', List.drop_of_length_le (by omega)]
    · rw [if_neg hlen, decide_eq_true (by omega)]
      dsimp only
      rw [hslice' (by omega)]
      exact ⟨tls', recvBuf', rfl, hrest', hchanged.append hchanged'⟩
  · simp only [if_neg hmedium]
    by_cases hlong : (recvBuf 1 &&& 0x7F).toNat = 127
    · simp only [if_pos hlong]
      obtain ⟨tls', recvBuf', hrecv', hrest', hslice', hchanged'⟩ :=
        recvExact_block { ws with tls, recvBuf } 2 8
      dsimp only at hrecv' hrest' hslice' hchanged'
      rw [hrecv']
      by_cases hlen : tls.incoming.length < 8
      · rw [if_pos hlen, decide_eq_false (by omega)]
        refine ⟨tls', recvBuf', rfl, ?_, hchanged.append hchanged'⟩
        rw [hrest', List.drop_of_length_le (by omega)]
      · rw [if_neg hlen, decide_eq_true (by omega)]
        dsimp only
        rw [hslice' (by omega)]
        exact ⟨tls', recvBuf', rfl, hrest', hchanged.append hchanged'⟩
    · simp only [if_neg hlong]
      exact ⟨tls, recvBuf, rfl, rfl, hchanged⟩

theorem headerRegions_inside (ws : WebSocket) :
    ∀ r ∈ ws.headerRegions, r.Inside maxFrameSize := by
  have hfixed : (Region.mk 0 2).Inside maxFrameSize := by decide
  unfold headerRegions
  refine List.forall_mem_cons.mpr ⟨hfixed, ?_⟩
  split
  · simp
  · dsimp only
    split_ifs
    · simp only [List.forall_mem_singleton]
      decide
    · simp only [List.forall_mem_singleton]
      decide
    · simp

theorem streamHeader_offset {stream : List UInt8} {h : FrameHeader}
    (hheader : streamHeader stream = some h) : h.offset ≤ 10 ∧ h.offset ≤ stream.length := by
  unfold streamHeader at hheader
  split at hheader
  · dsimp only at hheader
    split_ifs at hheader
    all_goals
      cases hheader
      simp only [List.length_cons]
      omega
  · cases hheader

theorem readMask_stream (ws : WebSocket) (masked : Bool) :
    ∃ tls mask, ws.readMask masked = ({ ws with tls }, mask) ∧
      (mask.isSome ↔ maskLen masked ≤ ws.tls.incoming.length) ∧
      tls.incoming = ws.tls.incoming.drop (maskLen masked) := by
  unfold readMask maskLen
  cases masked with
  | false => exact ⟨ws.tls, some [0, 0, 0, 0], rfl, by simp, rfl⟩
  | true =>
    obtain ⟨tls, hrecv, hdrop⟩ := ws.tls.recvExact_take 4
    rw [hrecv]
    refine ⟨tls, _, rfl, ?_, hdrop⟩
    rw [List.length_take]
    simp

theorem forall_payloadRegions {h : FrameHeader} {received : Bool} {P : Region → Prop} :
    (∀ r ∈ payloadRegions h received, P r) ↔
      (0 < h.payloadLen → P ⟨h.offset, h.payloadLen⟩) := by
  unfold payloadRegions
  split_ifs with hpos hmasked
  · simp [hpos]
  · simp [hpos]
  · simp [hpos]

/-- A call stays inside the buffer exactly when the header at the front of the stream fits. -/
theorem regions_inside_iff (ws : WebSocket) :
    (∀ r ∈ ws.regions, r.Inside maxFrameSize) ↔ HeadFits ws.tls.incoming := by
  obtain ⟨tls, recvBuf, hread, hrest, -⟩ := ws.readHeader_stream
  unfold regions
  rw [List.forall_mem_append, and_iff_right ws.headerRegions_inside, hread]
  unfold afterHeader at hrest
  cases hheader : streamHeader ws.tls.incoming with
  | none =>
    refine iff_of_true (by simp) ?_
    intro h hh
    rw [hheader] at hh
    cases hh
  | some h =>
    rw [hheader] at hrest
    obtain ⟨hten, hlength⟩ := streamHeader_offset hheader
    obtain ⟨tls', mask, hmask, hsome, -⟩ := readMask_stream { ws with tls, recvBuf } h.masked
    dsimp only at hrest hsome ⊢
    rw [hrest, List.length_drop] at hsome
    rw [hmask, headFits_iff hheader]
    by_cases hlimit : h.payloadLen > maxFrameSize
    · rw [if_pos hlimit]
      exact iff_of_true (by simp) (fun hle => absurd hlimit (Nat.not_lt.mpr hle))
    rw [if_neg hlimit]
    cases hm : mask with
    | none =>
      -- the stream ends within the mask key
      rw [hm] at hsome
      have hshort : ¬ maskLen h.masked ≤ ws.tls.incoming.length - h.offset :=
        fun hle => Bool.false_ne_true (hsome.mpr hle)
      exact iff_of_true (by simp) (fun _ hle => absurd hle (by omega))
    | some key =>
      rw [hm] at hsome
      have hkey : h.offset + maskLen h.masked ≤ ws.tls.incoming.length := by
        have := hsome.mp rfl
        omega
      rw [forall_payloadRegions]
      constructor
      · intro hpayload _ _
        rcases Nat.eq_zero_or_pos h.payloadLen with hzero | hpos
        · have hsmall : 10 ≤ maxFrameSize := by decide
          omega
        · exact hpayload hpos
      · intro hfits _
        exact hfits (by omega) hkey

theorem readPayload_stream (ws : WebSocket) (h : FrameHeader) :
    ∃ tls recvBuf received, ws.readPayload h = ({ ws with tls, recvBuf }, received) ∧
      tls.incoming = ws.tls.incoming.drop h.payloadLen ∧
      ChangedWithin (payloadRegions h received) ws.recvBuf recvBuf := by
  unfold readPayload
  by_cases hpos : h.payloadLen > 0
  · rw [if_pos hpos]
    obtain ⟨tls, recvBuf, hrecv, hrest, -, hchanged⟩ := ws.recvExact_block h.offset h.payloadLen
    refine ⟨tls, recvBuf, _, hrecv, hrest, hchanged.mono ?_⟩
    rw [payloadRegions, if_pos hpos]
    simp
  · rw [if_neg hpos]
    have hzero : h.payloadLen = 0 := by omega
    refine ⟨ws.tls, ws.recvBuf, true, rfl, ?_, .refl _ _⟩
    rw [hzero]
    rfl

/-- Taking off the mask changes no byte outside the payload. -/
theorem unmask_changed (m : Memory) (h : FrameHeader) (key : List UInt8) (received : Bool) :
    ChangedWithin (payloadRegions h received) m
      (if h.masked ∧ h.payloadLen > 0 then maskAt m h.offset h.payloadLen key else m) := by
  split_ifs with hmasked
  · refine (maskAt_changed m h.offset h.payloadLen key).mono ?_
    rw [payloadRegions, if_pos hmasked.2]
    simp
  · exact .refl _ _

theorem sendControlFrame_recvBuf (ws : WebSocket) (opcode : UInt8) (payload : List UInt8) :
    (ws.sendControlFrame opcode payload).1.recvBuf = ws.recvBuf := by
  unfold sendControlFrame
  split
  · rfl
  · rfl

/-- A call goes on to the same place of the stream whatever the pieces are, and it changes no
byte outside its regions. -/
theorem readFrame_stream (ws : WebSocket) :
    ws.readFrame.1.tls.incoming = afterFrame ws.tls.incoming ∧
      ChangedWithin ws.regions ws.recvBuf ws.readFrame.1.recvBuf := by
  obtain ⟨tls, recvBuf, hread, hrest, hchanged⟩ := ws.readHeader_stream
  have hstop := hchanged.append (.refl [] recvBuf)
  unfold readFrame regions afterFrame
  unfold afterHeader at hrest
  rw [hread]
  cases hheader : streamHeader ws.tls.incoming with
  | none =>
    rw [hheader] at hrest
    exact ⟨hrest, hstop⟩
  | some h =>
    rw [hheader] at hrest
    dsimp only at hrest ⊢
    by_cases hlimit : h.payloadLen > maxFrameSize
    · rw [if_pos hlimit, if_pos hlimit, if_pos hlimit]
      exact ⟨hrest, hstop⟩
    obtain ⟨tls₁, mask, hmask, hsome, hrest₁⟩ := readMask_stream { ws with tls, recvBuf } h.masked
    obtain ⟨tls₂, recvBuf₂, received, hpayload, hrest₂, hchanged₂⟩ :=
      readPayload_stream { ws with tls := tls₁, recvBuf } h
    dsimp only at hsome hrest₁ hrest₂ hchanged₂
    rw [hrest, List.drop_drop] at hrest₁
    rw [hrest₁, List.drop_drop] at hrest₂
    rw [if_neg hlimit, if_neg hlimit, if_neg hlimit, hmask]
    cases hm : mask with
    | none =>
      -- the stream ends within the mask key
      rw [hm, hrest, List.length_drop] at hsome
      have hshort : ¬ maskLen h.masked ≤ ws.tls.incoming.length - h.offset :=
        fun hle => Bool.false_ne_true (hsome.mpr hle)
      refine ⟨?_, hstop⟩
      rw [hrest₁, List.drop_of_length_le (by omega), List.drop_of_length_le (by omega)]
    | some key =>
      dsimp only
      rw [hpayload]
      cases received with
      | false => exact ⟨hrest₂, hchanged.append hchanged₂⟩
      | true =>
        have hunmask := hchanged.append (hchanged₂.trans (unmask_changed recvBuf₂ h key true))
        dsimp only
        by_cases hping : h.opcode = 0x9
        · rw [if_pos hping, sendControlFrame_incoming, sendControlFrame_recvBuf]
          exact ⟨hrest₂, hunmask⟩
        · rw [if_neg hping]
          exact ⟨hrest₂, hunmask⟩

/-! ### Whole runs -/

/-- The stream before each of the calls decides where they write. -/
theorem forall_runRegions (ws : WebSocket) (calls : ℕ) :
    (∀ r ∈ runRegions calls ws, r.Inside maxFrameSize) ↔
      ∀ k < calls, HeadFits (afterFrame^[k] ws.tls.incoming) := by
  induction calls generalizing ws with
  | zero => simp [runRegions]
  | succ calls ih =>
    rw [runRegions, List.forall_mem_append, regions_inside_iff, ih, (readFrame_stream ws).1,
      Nat.forall_lt_succ_left']
    rfl

/-- A run that stays inside the buffer leaves the memory behind it as it was. -/
theorem readFrames_recvBuf {ws : WebSocket} {calls : ℕ}
    (hinside : ∀ r ∈ runRegions calls ws, r.Inside maxFrameSize) {a : ℕ} (ha : maxFrameSize ≤ a) :
    (ws.readFrames calls).1.recvBuf a = ws.recvBuf a := by
  induction calls generalizing ws with
  | zero => rfl
  | succ calls ih =>
    rw [runRegions, List.forall_mem_append] at hinside
    rw [readFrames_succ, ih hinside.2]
    refine (readFrame_stream ws).2 a ?_
    rintro r hr ⟨-, hstop⟩
    have hfit : r.start + r.len ≤ maxFrameSize := hinside.1 r hr
    omega

/-- The reader stays inside its buffer in every run exactly on the streams each of whose
headers, as the calls meet them, fits the buffer together with its payload. -/
theorem neverOverruns_iff (stream : List UInt8) (chunks : ℕ → ℕ) (recvBuf : Memory)
    (rand : ℕ → Fin 4 → UInt8) :
    ((∀ calls, ∀ r ∈ runRegions calls (connected stream chunks recvBuf rand),
        r.Inside maxFrameSize) ↔
      ∀ k, HeadFits (afterFrame^[k] stream)) ∧
    ((∀ k, HeadFits (afterFrame^[k] stream)) → ∀ calls a, maxFrameSize ≤ a →
      ((connected stream chunks recvBuf rand).readFrames calls).1.recvBuf a = recvBuf a) := by
  have hruns : ∀ calls, (∀ r ∈ runRegions calls (connected stream chunks recvBuf rand),
      r.Inside maxFrameSize) ↔ ∀ k < calls, HeadFits (afterFrame^[k] stream) :=
    fun calls => forall_runRegions _ calls
  refine ⟨⟨?_, ?_⟩, ?_⟩
  · intro hinside k
    exact (hruns (k + 1)).mp (hinside (k + 1)) k (Nat.lt_succ_self k)
  · intro hfits calls
    exact (hruns calls).mpr (fun k _ => hfits k)
  · intro hfits calls a ha
    exact readFrames_recvBuf ((hruns calls).mpr (fun k _ => hfits k)) ha

/-! ### On streams of frames -/

theorem streamHeader_encode (f : Frame) (rest : List UInt8) :
    streamHeader (f.encode ++ rest) = some f.frameHeader := by
  let ws := connected (f.encode ++ rest) (fun _ => 1) (fun _ => 0) (fun _ _ => 0)
  have hincoming : ws.tls.incoming = f.header ++ (f.maskKey ++ f.sentPayload ++ rest) := by
    show f.encode ++ rest = _
    rw [Frame.encode, List.append_assoc, List.append_assoc, List.append_assoc]
  obtain ⟨tls, recvBuf, hframe, -⟩ := readHeader_frame hincoming
  obtain ⟨tls', recvBuf', hstream, -⟩ := ws.readHeader_stream
  exact congrArg Prod.snd (hstream.symm.trans hframe)

/-- Of the frames within the limit those fit whose header leaves room for the payload. -/
theorem headFits_encode_iff (f : Frame) (rest : List UInt8) :
    HeadFits (f.encode ++ rest) ↔
      (f.payload.length ≤ maxFrameSize → f.header.length + f.payload.length ≤ maxFrameSize) := by
  have hkey : f.maskKey.length = maskLen f.mask.isSome := by
    unfold Frame.maskKey maskLen
    cases f.mask with
    | none => rfl
    | some key => exact List.length_ofFn
  have hread : f.header.length + maskLen f.mask.isSome ≤ (f.encode ++ rest).length := by
    rw [Frame.encode, List.length_append, List.length_append, List.length_append, hkey]
    omega
  rw [headFits_iff (streamHeader_encode f rest)]
  constructor
  · intro hfits hlen
    exact hfits hlen hread
  · intro hfits hlen _
    exact hfits hlen

def limitFrame : Frame :=
  binaryFrame true .medium (List.replicate 8192 7) (by
    rw [List.length_replicate]
    decide)

def limitReader : WebSocket :=
  connected limitFrame.encode (fun _ => 8192) (fun _ => 0) (fun _ _ => 0)

/-- A payload of 8192 bytes behind a header of 4: the frame is delivered, and its last four
bytes have been written behind the buffer. -/
theorem limitFrame_overruns :
    limitReader.readFrame.2 = some ⟨true, 2, List.replicate 8192 7⟩ ∧
      ¬ ∀ calls, ∀ r ∈ runRegions calls limitReader, r.Inside maxFrameSize := by
  have hpayload : limitFrame.payload.length = 8192 := List.length_replicate
  have hheader : limitFrame.header.length = 4 := rfl
  have hlen : limitFrame.payload.length ≤ maxFrameSize := by
    rw [hpayload]
    decide
  have hincoming : limitReader.tls.incoming = limitFrame.encode ++ [] := (List.append_nil _).symm
  constructor
  · obtain ⟨ws', -, hread⟩ := readFrame_frame hlen hincoming
    rw [hread]
    rfl
  · intro hinside
    have hfits := (forall_runRegions limitReader 1).mp (hinside 1) 0 Nat.zero_lt_one
    rw [Function.iterate_zero, id, hincoming, headFits_encode_iff, hheader, hpayload] at hfits
    exact absurd (hfits (by decide)) (by decide)

end WebSocket

end HftSystem
