import HftSystem.WebSocketFrames

/-!
The two frame writers of the WebSocket client. `send_frame` chooses the shortest
length form, `send_control_frame` knows only the first one; where both apply they
write the same bytes. What they write is a frame, so the frame reader reads it
back, however the transport cuts it.
-/
namespace HftSystem.WebSocket

open ByteMemory ByteWords

/-- The length bytes of `send_frame`, the first of them with the mask bit. -/
def lengthBytes (len : ℕ) : List UInt8 :=
  if len ≤ 125 then [0x80 ||| UInt8.ofNat len]
  else if len ≤ 65535 then
    [0x80 ||| 126, UInt8.ofNat (len >>> 8 &&& 0xFF), UInt8.ofNat (len &&& 0xFF)]
  else
    (0x80 ||| 127) :: (List.range 8).reverse.map (fun i => UInt8.ofNat (len >>> (8 * i) &&& 0xFF))

def sendFrame (ws : WebSocket) (payload : List UInt8) (opcode : UInt8) : WebSocket × Bool :=
  let maskKey := List.ofFn (ws.rand ws.randCalls)
  let sendBuf := (0x80 ||| (opcode &&& 0x0F)) :: lengthBytes payload.length ++ maskKey ++
    applyMask maskKey payload
  ({ ws with tls := ws.tls.send sendBuf, randCalls := ws.randCalls + 1 }, true)

/-! ### What is written is a frame -/

/-- The form that `send_frame` chooses. -/
def LengthForm.shortest (len : ℕ) : LengthForm :=
  if len ≤ 125 then .short else if len ≤ 65535 then .medium else .long

theorem LengthForm.shortest_carries {len : ℕ} (h : len < 2 ^ 63) :
    (LengthForm.shortest len).Carries len := by
  unfold LengthForm.shortest
  split
  · assumption
  split
  · rename_i hmedium
    exact Nat.lt_succ_of_le hmedium
  · exact h

/-- A final masked frame. -/
def sentFrame (key : Fin 4 → UInt8) (payload : List UInt8) (opcode : UInt8)
    (h : payload.length < 2 ^ 63) : Frame where
  fin := true
  rsv := ⟨0, by decide⟩
  opcode := ⟨opcode.toNat % 16, Nat.mod_lt _ (by decide)⟩
  mask := some key
  form := .shortest payload.length
  payload := payload
  carried := LengthForm.shortest_carries h

theorem lowBits_byte : ∀ n : Fin 256,
    0x80 ||| (UInt8.ofNat n.val &&& 0x0F) = UInt8.ofNat (true.toNat * 128 + 0 * 16 + n.val % 16) ∧
      UInt8.ofNat (n.val % 16) = UInt8.ofNat n.val &&& 0x0F := by
  decide +kernel

theorem lowBits (opcode : UInt8) :
    0x80 ||| (opcode &&& 0x0F) = UInt8.ofNat (true.toNat * 128 + 0 * 16 + opcode.toNat % 16) ∧
      UInt8.ofNat (opcode.toNat % 16) = opcode &&& 0x0F := by
  have h := lowBits_byte ⟨opcode.toNat, opcode.toNat_lt⟩
  rwa [UInt8.ofNat_toNat] at h

theorem lengthBytes_eq (key : Fin 4 → UInt8) {payload : List UInt8} (opcode : UInt8)
    (h : payload.length < 2 ^ 63) :
    lengthBytes payload.length = secondByte true (sentFrame key payload opcode h).len7 ::
      (sentFrame key payload opcode h).extendedLength := by
  unfold lengthBytes Frame.len7 Frame.extendedLength sentFrame LengthForm.shortest
  by_cases hshort : payload.length ≤ 125
  · simp only [if_pos hshort]
    rw [pong_lengthByte ⟨payload.length, by omega⟩]
  · simp only [if_neg hshort]
    by_cases hmedium : payload.length ≤ 65535
    · simp only [if_pos hmedium, toBE_eq_map]
      rfl
    · simp only [if_neg hmedium, toBE_eq_map]
      rfl

theorem sendFrame_sent (ws : WebSocket) {payload : List UInt8} (opcode : UInt8)
    (h : payload.length < 2 ^ 63) :
    (ws.sendFrame payload opcode).1.tls.sent =
      ws.tls.sent ++ [(sentFrame (ws.rand ws.randCalls) payload opcode h).encode] := by
  unfold sendFrame
  dsimp only
  rw [(lowBits opcode).1, lengthBytes_eq (ws.rand ws.randCalls) opcode h]
  rfl

/-- The two writers agree on payloads that both can write. -/
theorem sendControlFrame_eq_sendFrame (ws : WebSocket) {payload : List UInt8} (opcode : UInt8)
    (h : payload.length ≤ 125) :
    ws.sendControlFrame opcode payload = ws.sendFrame payload opcode := by
  unfold sendControlFrame sendFrame lengthBytes
  rw [if_neg (by omega), if_pos h]

/-! ### Reading back -/

/-- The bytes before the mask key and the payload. -/
def headerLength (len : ℕ) : ℕ := if len ≤ 125 then 2 else if len ≤ 65535 then 4 else 10

/-- A frame that `send_frame` has written is read back as it is, with any bytes behind it and in
any pieces, and no byte more is consumed; `send_control_frame` writes the same bytes. -/
theorem sendFrame_readFrame (sender : WebSocket) {payload : List UInt8} {opcode : UInt8}
    (hfit : headerLength payload.length + payload.length ≤ maxFrameSize)
    (hping : opcode &&& 0x0F ≠ 0x9) :
    ∃ bytes, (sender.sendFrame payload opcode).1.tls.sent = sender.tls.sent ++ [bytes] ∧
      (∀ rest chunks recvBuf rand,
        ((connected (bytes ++ rest) chunks recvBuf rand).readFrame).2 =
            some ⟨true, opcode &&& 0x0F, payload⟩ ∧
          ((connected (bytes ++ rest) chunks recvBuf rand).readFrame).1.tls.incoming = rest) ∧
      (payload.length ≤ 125 →
        (sender.sendControlFrame opcode payload).1.tls.sent = sender.tls.sent ++ [bytes]) := by
  have hlen : payload.length ≤ maxFrameSize := by omega
  have hsmall : payload.length < 2 ^ 63 := lt_of_le_of_lt hlen (by decide)
  have hsent := sendFrame_sent sender opcode hsmall
  refine ⟨_, hsent, ?_, ?_⟩
  · intro rest chunks recvBuf rand
    have hincoming : (connected ((sentFrame (sender.rand sender.randCalls) payload opcode
        hsmall).encode ++ rest) chunks recvBuf rand).tls.incoming =
      (sentFrame (sender.rand sender.randCalls) payload opcode hsmall).encode ++ rest := rfl
    obtain ⟨ws', hreceived, hread⟩ := readFrame_frame hlen hincoming
    have hopcode : ¬ (sentFrame (sender.rand sender.randCalls) payload opcode hsmall).isPing := by
      rw [Frame.isPing, decide_eq_true_eq, ← opcode_eq_ping]
      change ¬ UInt8.ofNat (opcode.toNat % 16) = 0x9
      rwa [(lowBits opcode).2]
    rw [hread, if_neg hopcode]
    refine ⟨?_, hreceived.incoming⟩
    rw [Frame.result, if_neg hopcode, ← (lowBits opcode).2]
    rfl
  · intro hshort
    rw [sendControlFrame_eq_sendFrame sender opcode hshort, hsent]

/-- A payload of 126 bytes takes the second length form. -/
theorem sendFrame_readFrame_medium :
    ∃ bytes, ((connected [] (fun _ => 1) (fun _ => 0) (fun _ i => UInt8.ofNat i.val)).sendFrame
        (List.replicate 126 7) 0x82).1.tls.sent = [bytes] ∧
      ((connected (bytes ++ []) (fun _ => 3) (fun _ => 0) (fun _ _ => 0)).readFrame).2 =
        some ⟨true, 0x2, List.replicate 126 7⟩ := by
  have hfit : headerLength (List.replicate 126 (7 : UInt8)).length +
      (List.replicate 126 (7 : UInt8)).length ≤ maxFrameSize := by
    simp [headerLength, maxFrameSize]
  have hping : (0x82 : UInt8) &&& 0x0F ≠ 0x9 := by decide
  obtain ⟨bytes, hsent, hread, -⟩ := sendFrame_readFrame
    (connected [] (fun _ => 1) (fun _ => 0) (fun _ i => UInt8.ofNat i.val)) hfit hping
  exact ⟨bytes, hsent, (hread [] (fun _ => 3) (fun _ => 0) (fun _ _ => 0)).1⟩

end HftSystem.WebSocket
