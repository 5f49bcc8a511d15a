import HftSystem.ByteMemory
import HftSystem.Segments
import HftSystem.Transitions

/-!
The line reader under the CSV reader. It keeps two blocks of the file in front of the
caller while a thread of its own reads the next block behind them, and hands out the
lines in place, as C strings. A schedule says which of the two threads takes the next
step; all that they share is guarded by one lock, and a caller that needs the next
block waits for it.
-/
namespace HftSystem

open ByteMemory Segments

/-- What the caller and the worker share. A count is none where the source has -1. -/
structure AsynchronousReader where
  desiredByteCount : Option ℕ := none
  readByteCount : Option ℕ := none
  ended : Bool := false
deriving DecidableEq

/-- `source` is what the file has not delivered yet; `reader` is none until it is initialised. -/
structure LineReader where
  buffer : Memory
  source : List UInt8
  reader : Option AsynchronousReader := none
  dataBegin : ℕ := 0
  dataEnd : ℕ
  fileLine : UInt32 := 0

/-- How the calls of `next_line` can come to an end. The number of a line is unsigned in the reader
and an `int` in an error. -/
inductive LinesEnd where
  | noMoreLines
  | lineLengthLimitExceeded (fileLine : Int32)
deriving DecidableEq

/-- The number of a line as an error has it. -/
def lineNumber (n : ℕ) : Int32 := (UInt32.ofNat n).toInt32

/-- Up to the range of `int` it is the number. -/
theorem lineNumber_toInt {n : ℕ} (hn : n < 2 ^ 31) : (lineNumber n).toInt = n := by
  rw [lineNumber, UInt32.toInt32_ofNat']
  exact Int32.toInt_ofNat_of_lt hn

namespace LineReader

def byteOrderMark : List UInt8 := [0xEF, 0xBB, 0xBF]

/-- `init`, with the first read and the request for the third block. -/
def init (blockLen : ℕ) (memory : Memory) (file : List UInt8) : LineReader :=
  let bytes := file.take (2 * blockLen)
  let buffer := writeAt memory 0 bytes
  { buffer
    source := file.drop (2 * blockLen)
    reader := if bytes.length = 2 * blockLen then some ⟨some blockLen, none, false⟩ else none
    dataBegin :=
      if bytes.length ≥ 3 ∧ buffer 0 = 0xEF ∧ buffer 1 = 0xBB ∧ buffer 2 = 0xBF then 3 else 0
    dataEnd := bytes.length }

/-- One turn of the loop of the worker, which holds the lock while it reads. -/
def work (blockLen : ℕ) (r : LineReader) : LineReader :=
  match r.reader with
  | none => r
  | some a =>
    if a.ended then r
    else
      match a.desiredByteCount with
      | none => r
      | some n =>
        let bytes := r.source.take n
        { r with
          buffer := writeAt r.buffer (2 * blockLen) bytes
          source := r.source.drop n
          reader := some ⟨none, some bytes.length, bytes.length = 0⟩ }

/-- The second block becomes the first one. -/
def shift (blockLen : ℕ) (r : LineReader) : LineReader :=
  { r with
    buffer := copy r.buffer 0 blockLen blockLen
    dataBegin := r.dataBegin - blockLen
    dataEnd := r.dataEnd - blockLen }

/-- The third block becomes the second one, and the next one is asked for. -/
def refill (blockLen : ℕ) (r : LineReader) (a : AsynchronousReader) (count : ℕ) : LineReader :=
  { r with
    buffer := copy r.buffer blockLen (2 * blockLen) blockLen
    dataEnd := r.dataEnd + count
    reader := some { a with desiredByteCount := some blockLen, readByteCount := none } }

def findLineEnd (buffer : Memory) : (left : ℕ) → (i : ℕ) → ℕ
  | 0, i => i
  | left + 1, i => if buffer i = 10 then i else findLineEnd buffer left (i + 1)

/-- A C string in the buffer that ends within the given number of bytes. -/
def cStringAt (buffer : Memory) (offset len : ℕ) : List UInt8 :=
  (slice buffer offset len).takeWhile (fun b => b ≠ 0)

/-- A zero byte is written over the line break, and over a carriage return in front of it. -/
def terminate (buffer : Memory) (lineBegin lineEnd : ℕ) : Memory :=
  let buffer := Function.update buffer lineEnd 0
  if lineEnd ≠ lineBegin ∧ buffer (lineEnd - 1) = 13 then Function.update buffer (lineEnd - 1) 0
  else buffer

/-- The last part of `next_line`. -/
def cutLine (blockLen : ℕ) (r : LineReader) : Except LinesEnd (List UInt8 × LineReader) :=
  let lineEnd := findLineEnd r.buffer (r.dataEnd - r.dataBegin) r.dataBegin
  if lineEnd - r.dataBegin + 1 > blockLen then .error (.lineLengthLimitExceeded r.fileLine.toInt32)
  else
    let dataEnd := if lineEnd ≠ r.dataEnd ∧ r.buffer lineEnd = 10 then r.dataEnd else r.dataEnd + 1
    let buffer := terminate r.buffer r.dataBegin lineEnd
    .ok (cStringAt buffer r.dataBegin (lineEnd - r.dataBegin + 1),
      { r with buffer, dataEnd, dataBegin := lineEnd + 1 })

end LineReader

/-! ### The two threads -/

inductive ReaderThread where
  | caller
  | worker
deriving DecidableEq

/-- A line reader whose caller asks for one line after the other. The lines returned so far are
recorded, and how they have ended. The caller waits inside `next_line` if `waiting` is set. -/
structure LineReading where
  reader : LineReader
  waiting : Bool := false
  lines : List (List UInt8) := []
  ended : Option LinesEnd := none

namespace LineReading

open LineReader

def start (blockLen : ℕ) (memory : Memory) (file : List UInt8) : LineReading where
  reader := .init blockLen memory file

/-- The call of `next_line` returns or throws. -/
def deliver (blockLen : ℕ) (s : LineReading) (r : LineReader) : LineReading :=
  match r.cutLine blockLen with
  | .error e => { s with reader := r, waiting := false, ended := some e }
  | .ok (line, r) => { s with reader := r, waiting := false, lines := s.lines ++ [line] }

/-- A call of `next_line`, up to its return or to its wait for the worker. -/
def call (blockLen : ℕ) (s : LineReading) : LineReading :=
  if s.reader.dataBegin = s.reader.dataEnd then { s with ended := some .noMoreLines }
  else
    let r := { s.reader with fileLine := s.reader.fileLine + 1 }
    if r.dataBegin ≥ blockLen then
      match r.reader with
      | none => s.deliver blockLen (r.shift blockLen)
      | some _ => { s with reader := r.shift blockLen, waiting := true }
    else s.deliver blockLen r

/-- The end of a wait in `finish_read`, once the worker has read. -/
def resume (blockLen : ℕ) (s : LineReading) : LineReading :=
  match s.reader.reader with
  | none => s
  | some a =>
    match a.readByteCount with
    | none => s
    | some count => s.deliver blockLen (s.reader.refill blockLen a count)

def step (blockLen : ℕ) (s : LineReading) : ReaderThread → LineReading
  | .worker => { s with reader := s.reader.work blockLen }
  | .caller =>
    if s.ended.isSome then s
    else if s.waiting then s.resume blockLen
    else s.call blockLen

end LineReading

/-! ### The text ahead -/

namespace LineReader

/-- The bytes between the two indices. -/
def data (r : LineReader) : List UInt8 := slice r.buffer r.dataBegin (r.dataEnd - r.dataBegin)

/-- The bytes that the worker has read and the caller has not taken over. -/
def inFlight (blockLen : ℕ) (r : LineReader) : List UInt8 :=
  match r.reader with
  | some ⟨_, some count, _⟩ => slice r.buffer (2 * blockLen) count
  | _ => []

def rest (blockLen : ℕ) (r : LineReader) : List UInt8 := r.inFlight blockLen ++ r.source

/-- The bytes of the file that have not been returned in lines yet. -/
def text (blockLen : ℕ) (r : LineReader) : List UInt8 := r.data ++ r.rest blockLen

/-- What holds between the calls (with a limit of two blocks) and while the caller waits (with a
limit of one block). -/
structure Sound (blockLen limit : ℕ) (r : LineReader) : Prop where
  begin_le : r.dataBegin ≤ r.dataEnd
  end_le : r.dataEnd ≤ limit
  full : r.rest blockLen ≠ [] → r.dataEnd = limit ∧ r.dataBegin < limit
  finished : r.reader = none → r.source = []
  exchange : ∀ a, r.reader = some a →
    a.desiredByteCount = some blockLen ∧ a.readByteCount = none ∨
      a.desiredByteCount = none ∧ ∃ count, a.readByteCount = some count ∧ count ≤ blockLen ∧
        (count < blockLen → r.source = [])
  exhausted : ∀ a, r.reader = some a → a.ended = true →
    r.source = [] ∧ (∀ count, a.readByteCount = some count → count = 0) ∧
      (a.readByteCount = none → r.dataEnd ≤ blockLen ∨ r.dataBegin = r.dataEnd)

variable {blockLen limit : ℕ} {r : LineReader}

theorem inFlight_of_none (h : r.reader = none) : r.inFlight blockLen = [] := by
  rw [inFlight, h]

theorem inFlight_of_pending {a : AsynchronousReader} (h : r.reader = some a)
    (hcount : a.readByteCount = none) : r.inFlight blockLen = [] := by
  obtain ⟨desired, count, ended⟩ := a
  rw [inFlight, h]
  dsimp only at hcount
  rw [hcount]

theorem inFlight_of_answer {a : AsynchronousReader} (h : r.reader = some a) {count : ℕ}
    (hcount : a.readByteCount = some count) :
    r.inFlight blockLen = slice r.buffer (2 * blockLen) count := by
  obtain ⟨desired, count', ended⟩ := a
  rw [inFlight, h]
  dsimp only at hcount
  rw [hcount]

theorem inFlight_congr {r' : LineReader} (hreader : r'.reader = r.reader)
    (hfar : ∀ i, r'.buffer (2 * blockLen + i) = r.buffer (2 * blockLen + i)) :
    r'.inFlight blockLen = r.inFlight blockLen := by
  unfold inFlight
  rw [hreader]
  split
  · exact slice_congr (fun i _ => hfar i)
  · rfl

/-! ### One turn of the worker -/

/-- The worker does something only on a request. -/
theorem work_cases (blockLen : ℕ) (r : LineReader) :
    r.work blockLen = r ∨ ∃ a n, r.reader = some a ∧ a.ended = false ∧
      a.desiredByteCount = some n ∧
      r.work blockLen = { r with
        buffer := writeAt r.buffer (2 * blockLen) (r.source.take n)
        source := r.source.drop n
        reader := some ⟨none, some (r.source.take n).length, (r.source.take n).length = 0⟩ } := by
  unfold work
  split
  · exact .inl rfl
  · rename_i a hreader
    by_cases hended : a.ended = true
    · rw [if_pos hended]
      exact .inl rfl
    · rw [if_neg hended]
      split
      · exact .inl rfl
      · rename_i n hdesired
        exact .inr ⟨a, n, hreader, by simpa using hended, hdesired, rfl⟩

/-- A turn of the worker leaves the text ahead as it is. -/
theorem Sound.work (h : Sound blockLen limit r) (hpos : 0 < blockLen) (hlimit : limit ≤ 2 * blockLen) :
    Sound blockLen limit (r.work blockLen) ∧ (r.work blockLen).text blockLen = r.text blockLen := by
  rcases work_cases blockLen r with hsame | ⟨a, n, hreader, hended, hdesired, hwork⟩
  · rw [hsame]
    exact ⟨h, rfl⟩
  · obtain ⟨hn, hcount⟩ : n = blockLen ∧ a.readByteCount = none := by
      rcases h.exchange a hreader with ⟨hpending, hcount⟩ | ⟨hnone, -⟩
      · exact ⟨Option.some.inj (hdesired.symm.trans hpending), hcount⟩
      · rw [hnone] at hdesired
        cases hdesired
    subst hn
    have hrest : r.rest n = r.source := by
      rw [rest, inFlight_of_pending hreader hcount, List.nil_append]
    have hrest' : (r.work n).rest n = r.source := by
      rw [hwork, rest]
      change slice (writeAt r.buffer (2 * n) (r.source.take n)) (2 * n) (r.source.take n).length ++
        r.source.drop n = r.source
      rw [slice_writeAt, List.take_append_drop]
    have hdata : (r.work n).data = r.data := by
      have hend := h.end_le
      rw [hwork]
      change slice (writeAt r.buffer (2 * n) (r.source.take n)) r.dataBegin
        (r.dataEnd - r.dataBegin) = slice r.buffer r.dataBegin (r.dataEnd - r.dataBegin)
      apply slice_congr
      intro i hi
      exact writeAt_of_outside (.inl (by omega))
    refine ⟨⟨?_, ?_, ?_, ?_, ?_, ?_⟩, ?_⟩
    · rw [hwork]
      exact h.begin_le
    · rw [hwork]
      exact h.end_le
    · rw [hrest', ← hrest, hwork]
      exact h.full
    · rw [hwork]
      exact nofun
    · intro a' ha'
      rw [hwork] at ha' ⊢
      cases ha'
      refine .inr ⟨rfl, _, rfl, ?_, ?_⟩
      · rw [List.length_take]
        exact min_le_left _ _
      · intro hshort
        rw [List.length_take] at hshort
        exact List.drop_eq_nil_of_le (by omega)
    · intro a' ha' hended'
      rw [hwork] at ha' ⊢
      cases ha'
      have hzero : (r.source.take n).length = 0 := of_decide_eq_true hended'
      have hempty : r.source.length = 0 := by
        rw [List.length_take] at hzero
        omega
      refine ⟨?_, ?_, nofun⟩
      · exact List.drop_eq_nil_of_le (by omega)
      · rintro count ⟨⟩
        exact hzero
    · rw [text, text, hdata, hrest', hrest]

/-! ### Taking over the next block -/

theorem Sound.shift (h : Sound blockLen (2 * blockLen) r) (hbegin : blockLen ≤ r.dataBegin)
    (hne : r.dataBegin ≠ r.dataEnd) :
    Sound blockLen blockLen (r.shift blockLen) ∧
      (r.shift blockLen).text blockLen = r.text blockLen ∧
      (r.shift blockLen).dataBegin < (r.shift blockLen).dataEnd ∧
      ∀ a, r.reader = some a → a.ended = true → a.readByteCount ≠ none := by
  have hle := h.begin_le
  have hend := h.end_le
  have hflight : (r.shift blockLen).inFlight blockLen = r.inFlight blockLen :=
    inFlight_congr rfl (fun i => copy_of_outside (.inr (by omega)))
  have hrest : (r.shift blockLen).rest blockLen = r.rest blockLen := by
    rw [rest, rest, hflight]
    rfl
  have hdata : (r.shift blockLen).data = r.data := by
    unfold data LineReader.shift
    dsimp only
    rw [Nat.sub_sub_sub_cancel_right hbegin]
    apply slice_congr
    intro i hi
    have hcopy := copy_apply r.buffer 0 blockLen (show r.dataBegin - blockLen + i < blockLen by omega)
    rw [Nat.zero_add] at hcopy
    rw [hcopy]
    congr 1
    omega
  refine ⟨⟨?_, ?_, ?_, h.finished, h.exchange, ?_⟩, ?_, ?_, ?_⟩
  · exact Nat.sub_le_sub_right hle blockLen
  · change r.dataEnd - blockLen ≤ blockLen
    omega
  · rw [hrest]
    intro hsome
    have hfull := h.full hsome
    change r.dataEnd - blockLen = blockLen ∧ r.dataBegin - blockLen < blockLen
    omega
  · intro a ha hended
    obtain ⟨hsource, hzero, -⟩ := h.exhausted a ha hended
    refine ⟨hsource, hzero, fun _ => .inl ?_⟩
    change r.dataEnd - blockLen ≤ blockLen
    omega
  · rw [text, text, hdata, hrest]
  · change r.dataBegin - blockLen < r.dataEnd - blockLen
    omega
  · intro a ha hended hcount
    rcases (h.exhausted a ha hended).2.2 hcount with hsmall | heq
    · omega
    · exact hne heq

/-- Without a worker nothing is ahead, and one block is as good as two. -/
theorem Sound.widen (h : Sound blockLen blockLen r) (hreader : r.reader = none) :
    Sound blockLen (2 * blockLen) r := by
  have hrest : r.rest blockLen = [] := by
    rw [rest, inFlight_of_none hreader, h.finished hreader, List.append_nil]
  have hend := h.end_le
  exact ⟨h.begin_le, by omega, fun hsome => absurd hrest hsome, h.finished, h.exchange, h.exhausted⟩

theorem Sound.refill (h : Sound blockLen blockLen r) (hlt : r.dataBegin < r.dataEnd)
    {a : AsynchronousReader} (ha : r.reader = some a) {count : ℕ}
    (hcount : a.readByteCount = some count) :
    Sound blockLen (2 * blockLen) (r.refill blockLen a count) ∧
      (r.refill blockLen a count).text blockLen = r.text blockLen := by
  have hend := h.end_le
  obtain ⟨hcountLe, hshort⟩ : count ≤ blockLen ∧ (count < blockLen → r.source = []) := by
    rcases h.exchange a ha with ⟨-, hnone⟩ | ⟨-, count', hcount', hle, hshort⟩
    · rw [hcount] at hnone
      cases hnone
    · rw [hcount] at hcount'
      cases hcount'
      exact ⟨hle, hshort⟩
  have hrest : r.rest blockLen = slice r.buffer (2 * blockLen) count ++ r.source := by
    rw [rest, inFlight_of_answer ha hcount]
  have hrest' : (r.refill blockLen a count).rest blockLen = r.source := by
    rw [rest, inFlight_of_pending rfl rfl]
    rfl
  have hfull : 0 < count → r.dataEnd = blockLen := by
    intro hpos
    refine (h.full ?_).1
    rw [hrest]
    intro hnil
    have hlength := congrArg List.length hnil
    rw [List.length_append, length_slice, List.length_nil] at hlength
    omega
  have hdata : (r.refill blockLen a count).data = r.data ++ slice r.buffer (2 * blockLen) count := by
    have hsplit : r.dataEnd + count - r.dataBegin = (r.dataEnd - r.dataBegin) + count := by omega
    change slice (copy r.buffer blockLen (2 * blockLen) blockLen) r.dataBegin
      (r.dataEnd + count - r.dataBegin) = _
    rw [hsplit, slice_add]
    congr 1
    · apply slice_congr
      intro i hi
      exact copy_of_outside (.inl (by omega))
    · apply slice_congr
      intro i hi
      have hat : r.dataBegin + (r.dataEnd - r.dataBegin) = blockLen := by
        have := hfull (by omega)
        omega
      rw [hat]
      exact copy_apply r.buffer blockLen (2 * blockLen) (by omega)
  refine ⟨⟨?_, ?_, ?_, nofun, ?_, ?_⟩, ?_⟩
  · change r.dataBegin ≤ r.dataEnd + count
    omega
  · change r.dataEnd + count ≤ 2 * blockLen
    omega
  · rw [hrest']
    intro hsome
    change r.dataEnd + count = 2 * blockLen ∧ r.dataBegin < 2 * blockLen
    have hwhole : count = blockLen := by
      by_contra hne
      exact hsome (hshort (by omega))
    have := hfull (by omega)
    omega
  · intro a' ha'
    cases ha'
    exact .inl ⟨rfl, rfl⟩
  · intro a' ha' hended
    cases ha'
    obtain ⟨hsource, hzero, -⟩ := h.exhausted a ha hended
    refine ⟨hsource, nofun, fun _ => .inl ?_⟩
    change r.dataEnd + count ≤ blockLen
    rw [hzero count hcount]
    exact hend
  · rw [text, text, hdata, hrest', hrest, List.append_assoc]

/-! ### Cutting a line -/

/-- The C string of a line: a carriage return at its end and everything from a zero byte on are
left out. -/
def cLine (segment : List UInt8) : List UInt8 :=
  (if segment.getLast? = some 13 then segment.dropLast else segment).takeWhile (fun b => b ≠ 0)

theorem findLineEnd_eq (m : Memory) (left i : ℕ) :
    findLineEnd m left i = i + (first 10 (slice m i left)).length := by
  induction left generalizing i with
  | zero => rfl
  | succ left ih =>
    rw [findLineEnd, slice_succ]
    by_cases hnewline : m i = 10
    · rw [if_pos hnewline, hnewline, first_cons_self]
      rfl
    · rw [if_neg hnewline, ih, first_cons_of_ne hnewline, List.length_cons]
      omega

theorem slice_update_end (m : Memory) (offset len : ℕ) (b : UInt8) :
    slice (Function.update m (offset + len) b) offset (len + 1) = slice m offset len ++ [b] := by
  rw [slice_add]
  congr 1
  · apply slice_congr
    intro i hi
    exact Function.update_of_ne (by omega) _ _
  · rw [slice_succ, slice_zero, Function.update_self]

theorem takeWhile_append_zero (l l' : List UInt8) :
    (l ++ 0 :: l').takeWhile (fun b => b ≠ 0) = l.takeWhile (fun b => b ≠ 0) := by
  induction l with
  | nil => rfl
  | cons b l ih =>
    by_cases hb : b = 0
    · subst hb
      rfl
    · rw [List.cons_append, List.takeWhile_cons_of_pos (by simpa using hb), ih,
        List.takeWhile_cons_of_pos (by simpa using hb)]

theorem terminate_of_lt (m : Memory) (lineBegin : ℕ) {lineEnd a : ℕ} (ha : lineEnd < a) :
    terminate m lineBegin lineEnd a = m a := by
  unfold terminate
  split
  · rw [Function.update_of_ne (by omega), Function.update_of_ne (by omega)]
  · rw [Function.update_of_ne (by omega)]

theorem cStringAt_terminate (m : Memory) (offset len : ℕ) :
    cStringAt (terminate m offset (offset + len)) offset (len + 1) = cLine (slice m offset len) := by
  unfold terminate
  dsimp only
  cases len with
  | zero =>
    rw [if_neg (fun h => h.1 rfl), cStringAt, slice_update_end, slice_zero]
    rfl
  | succ len =>
    have hlast : Function.update m (offset + (len + 1)) 0 (offset + (len + 1) - 1) =
        m (offset + len) := by
      rw [Function.update_of_ne (by omega)]
      rfl
    have hsplit : slice m offset (len + 1) = slice m offset len ++ [m (offset + len)] := by
      rw [slice_add]
      rfl
    have hgetLast : (slice m offset (len + 1)).getLast? = some (m (offset + len)) := by
      rw [hsplit, List.getLast?_concat]
    rw [hlast, cLine, hgetLast, cStringAt]
    by_cases hreturn : m (offset + len) = 13
    · have hzeros : slice (Function.update (Function.update m (offset + (len + 1)) 0)
          (offset + len) 0) offset (len + 2) = slice m offset len ++ [0, 0] := by
        have hnext : Function.update (Function.update m (offset + (len + 1)) 0) (offset + len) 0
            (offset + (len + 1)) = 0 := by
          rw [Function.update_of_ne (by omega), Function.update_self]
        rw [slice_add, slice_succ, slice_succ, slice_zero, Function.update_self]
        congr 1
        · apply slice_congr
          intro i hi
          rw [Function.update_of_ne (by omega), Function.update_of_ne (by omega)]
        · exact congrArg (fun b => [0, b]) hnext
      rw [if_pos ⟨by omega, hreturn⟩, if_pos (congrArg some hreturn)]
      change (slice (Function.update (Function.update m (offset + (len + 1)) 0) (offset + len) 0)
        offset (len + 2)).takeWhile (fun b => b ≠ 0) = _
      rw [hzeros, takeWhile_append_zero, hsplit, List.dropLast_concat]
    · rw [if_neg (fun h => hreturn h.2), if_neg (fun h => hreturn (Option.some.inj h)),
        slice_update_end, takeWhile_append_zero]

theorem length_data (r : LineReader) : r.data.length = r.dataEnd - r.dataBegin :=
  length_slice _ _ _

/-- A cut returns the part of the data in front of the line break, and touches nothing behind it. -/
theorem cutLine_eq (blockLen : ℕ) (r : LineReader) :
    blockLen ≤ (first 10 r.data).length ∧
        r.cutLine blockLen = .error (.lineLengthLimitExceeded r.fileLine.toInt32) ∨
      (first 10 r.data).length < blockLen ∧ ∃ buffer : Memory,
        (∀ a, r.dataBegin + (first 10 r.data).length < a → buffer a = r.buffer a) ∧
        r.cutLine blockLen = .ok (cLine (first 10 r.data), { r with
          buffer
          dataBegin := r.dataBegin + (first 10 r.data).length + 1
          dataEnd := if r.dataBegin + (first 10 r.data).length ≠ r.dataEnd ∧
              r.buffer (r.dataBegin + (first 10 r.data).length) = 10 then r.dataEnd
            else r.dataEnd + 1 }) := by
  have hline : slice r.buffer r.dataBegin (first 10 r.data).length = first 10 r.data :=
    (slice_eq_append (List.takeWhile_append_dropWhile ..).symm).1
  unfold cutLine
  rw [findLineEnd_eq, show slice r.buffer r.dataBegin (r.dataEnd - r.dataBegin) = r.data from rfl]
  dsimp only
  rw [Nat.add_sub_cancel_left]
  by_cases hlong : (first 10 r.data).length + 1 > blockLen
  · rw [if_pos hlong]
    exact .inl ⟨by omega, rfl⟩
  · rw [if_neg hlong, cStringAt_terminate, hline]
    exact .inr ⟨by omega, _, fun a ha => terminate_of_lt r.buffer r.dataBegin ha, rfl⟩

/-- A call that does not have to wait returns the next line of the text ahead, unless it is as
long as a block. -/
theorem Sound.cutLine (h : Sound blockLen (2 * blockLen) r) (hlt : r.dataBegin < r.dataEnd)
    (hbegin : r.dataBegin < blockLen) :
    blockLen ≤ (first 10 (r.text blockLen)).length ∧
        r.cutLine blockLen = .error (.lineLengthLimitExceeded r.fileLine.toInt32) ∨
      (first 10 (r.text blockLen)).length < blockLen ∧ ∃ r',
        r.cutLine blockLen = .ok (cLine (first 10 (r.text blockLen)), r') ∧
        Sound blockLen (2 * blockLen) r' ∧
        r'.text blockLen = afterFirst 10 (r.text blockLen) ∧ r'.fileLine = r.fileLine := by
  have hend := h.end_le
  have hlength := r.length_data
  -- behind the line nothing changes, in particular not in the block of the worker
  have hrest : ∀ (buffer : Memory) (dataBegin dataEnd : ℕ),
      (∀ a, r.dataBegin + (first 10 r.data).length < a → buffer a = r.buffer a) →
      r.dataBegin + (first 10 r.data).length < 2 * blockLen →
      { r with buffer, dataBegin, dataEnd }.rest blockLen = r.rest blockLen := by
    intro buffer dataBegin dataEnd hsame hinside
    have hflight : { r with buffer, dataBegin, dataEnd }.inFlight blockLen = r.inFlight blockLen :=
      inFlight_congr rfl (fun i => hsame _ (by omega))
    rw [rest, hflight, rest]
  by_cases hnewline : 10 ∈ r.data
  · have hsplit := first_append_afterFirst hnewline
    have hshorter : (first 10 r.data).length + 1 + (afterFirst 10 r.data).length =
        r.dataEnd - r.dataBegin := by
      have hsum := congrArg List.length hsplit
      rw [List.length_append, List.length_cons] at hsum
      omega
    rw [text, first_append_of_mem hnewline, afterFirst_append_of_mem hnewline]
    rcases cutLine_eq blockLen r with ⟨hlong, hcut⟩ | ⟨hshort, buffer, hsame, hcut⟩
    · exact .inl ⟨hlong, hcut⟩
    · obtain ⟨-, hbehind⟩ := slice_eq_append (show slice _ _ _ = _ from hsplit)
      rw [List.length_cons, slice_succ, List.cons.injEq] at hbehind
      obtain ⟨hbreak, hafter⟩ := hbehind
      rw [if_pos ⟨by omega, hbreak⟩] at hcut
      refine .inr ⟨hshort, _, hcut, ⟨?_, hend, ?_, h.finished, h.exchange, ?_⟩, ?_, rfl⟩
      · change r.dataBegin + (first 10 r.data).length + 1 ≤ r.dataEnd
        omega
      · rw [hrest buffer _ _ hsame (by omega)]
        intro hsome
        refine ⟨(h.full hsome).1, ?_⟩
        change r.dataBegin + (first 10 r.data).length + 1 < 2 * blockLen
        omega
      · intro a ha hended
        obtain ⟨hsource, hzero, hover⟩ := h.exhausted a ha hended
        refine ⟨hsource, hzero, fun hcount => .inl ?_⟩
        rcases hover hcount with hsmall | heq
        · exact hsmall
        · omega
      · rw [text, hrest buffer _ _ hsame (by omega)]
        congr 1
        have hlen : r.dataEnd - (r.dataBegin + (first 10 r.data).length + 1) =
            (afterFirst 10 r.data).length := by omega
        change slice buffer (r.dataBegin + (first 10 r.data).length + 1)
          (r.dataEnd - (r.dataBegin + (first 10 r.data).length + 1)) = _
        rw [hlen]
        refine Eq.trans (slice_congr (fun i _ => hsame _ (by omega))) hafter
  · have hfirst : first 10 r.data = r.data := first_of_not_mem hnewline
    rw [hfirst, hlength] at hrest
    by_cases hmore : r.rest blockLen = []
    · rw [text, hmore, List.append_nil, hfirst, afterFirst_of_not_mem hnewline]
      rcases cutLine_eq blockLen r with ⟨hlong, hcut⟩ | ⟨hshort, buffer, hsame, hcut⟩
      · rw [hfirst] at hlong
        exact .inl ⟨hlong, hcut⟩
      · rw [hfirst, hlength] at hshort hsame hcut
        have hatEnd : r.dataBegin + (r.dataEnd - r.dataBegin) = r.dataEnd := by omega
        rw [hatEnd] at hsame hcut hrest
        rw [if_neg (fun hne => hne.1 rfl)] at hcut
        have hrest' := hrest buffer (r.dataEnd + 1) (r.dataEnd + 1) hsame (by omega)
        refine .inr ⟨by omega, _, hcut, ⟨le_refl _, ?_, ?_, h.finished, h.exchange, ?_⟩, ?_, rfl⟩
        · change r.dataEnd + 1 ≤ 2 * blockLen
          omega
        · rw [hrest']
          exact fun hsome => absurd hmore hsome
        · intro a ha hended
          obtain ⟨hsource, hzero, -⟩ := h.exhausted a ha hended
          exact ⟨hsource, hzero, fun _ => .inr rfl⟩
        · rw [text, hrest', hmore, List.append_nil, data]
          change slice buffer (r.dataEnd + 1) (r.dataEnd + 1 - (r.dataEnd + 1)) = []
          rw [Nat.sub_self, slice_zero]
    · -- a full buffer without a line break
      have hfull := (h.full hmore).1
      rw [text, first_append hnewline, List.length_append]
      rcases cutLine_eq blockLen r with ⟨-, hcut⟩ | ⟨hshort, -⟩
      · exact .inl ⟨by omega, hcut⟩
      · rw [hfirst] at hshort
        omega

/-! ### The start -/

/-- The file without a byte order mark in front. -/
def body (file : List UInt8) : List UInt8 :=
  if byteOrderMark <+: file then file.drop 3 else file

theorem byteOrderMark_prefix_iff (file : List UInt8) :
    byteOrderMark <+: file ↔
      3 ≤ file.length ∧ file.getD 0 0 = 0xEF ∧ file.getD 1 0 = 0xBB ∧ file.getD 2 0 = 0xBF := by
  constructor
  · rintro ⟨rest, rfl⟩
    refine ⟨?_, rfl, rfl, rfl⟩
    simp [byteOrderMark]
  · rintro ⟨hlength, h₀, h₁, h₂⟩
    match file with
    | [] => simp at hlength
    | [_] => simp at hlength
    | [_, _] => simp at hlength
    | a :: b :: c :: rest =>
      refine ⟨rest, ?_⟩
      change a = 0xEF at h₀
      change b = 0xBB at h₁
      change c = 0xBF at h₂
      rw [h₀, h₁, h₂]
      rfl

/-- The number of bytes that the mark takes. -/
def skipped (file : List UInt8) : ℕ := if byteOrderMark <+: file then 3 else 0

theorem body_eq_drop (file : List UInt8) : body file = file.drop (skipped file) := by
  unfold body skipped
  split
  · rfl
  · rfl

theorem skipped_le (file : List UInt8) : skipped file ≤ min 3 file.length := by
  unfold skipped
  split
  · rename_i hmark
    have := ((byteOrderMark_prefix_iff file).mp hmark).1
    omega
  · exact Nat.zero_le _

theorem init_dataBegin (hblock : 2 ≤ blockLen) (memory : Memory) (file : List UInt8) :
    (init blockLen memory file).dataBegin = skipped file := by
  have hread : ∀ i < 3, 3 ≤ (file.take (2 * blockLen)).length →
      writeAt memory 0 (file.take (2 * blockLen)) i = file.getD i 0 := by
    intro i hi hlength
    have hwrite := writeAt_apply memory 0 (file.take (2 * blockLen)) (show i < _ by omega)
    rw [Nat.zero_add] at hwrite
    rw [List.length_take] at hlength
    rw [hwrite, List.getElem_take, List.getD_eq_getElem _ _ (by omega)]
  refine if_congr ?_ rfl rfl
  rw [byteOrderMark_prefix_iff]
  have hlength : (file.take (2 * blockLen)).length ≥ 3 ↔ 3 ≤ file.length := by
    rw [List.length_take]
    omega
  constructor
  · rintro ⟨hthree, h₀, h₁, h₂⟩
    rw [hread _ (by decide) hthree] at h₀ h₁ h₂
    exact ⟨hlength.mp hthree, h₀, h₁, h₂⟩
  · rintro ⟨hthree, h₀, h₁, h₂⟩
    have hthree' := hlength.mpr hthree
    rw [hread _ (by decide) hthree', hread _ (by decide) hthree', hread _ (by decide) hthree']
    exact ⟨hthree', h₀, h₁, h₂⟩

theorem sound_init (hblock : 2 ≤ blockLen) (memory : Memory) (file : List UInt8) :
    Sound blockLen (2 * blockLen) (init blockLen memory file) ∧
      (init blockLen memory file).text blockLen = body file := by
  have hbegin := init_dataBegin hblock memory file
  have hskip := skipped_le file
  have hlength : (file.take (2 * blockLen)).length = min (2 * blockLen) file.length :=
    List.length_take
  have hend : (init blockLen memory file).dataEnd = (file.take (2 * blockLen)).length := rfl
  have hflight : (init blockLen memory file).inFlight blockLen = [] := by
    unfold inFlight init
    dsimp only
    split
    · rename_i hreader
      split at hreader
      · cases hreader
      · cases hreader
    · rfl
  have hrest : (init blockLen memory file).rest blockLen = file.drop (2 * blockLen) := by
    rw [rest, hflight]
    rfl
  refine ⟨⟨?_, ?_, ?_, ?_, ?_, ?_⟩, ?_⟩
  · rw [hbegin, hend]
    omega
  · rw [hend]
    omega
  · rw [hrest, hend, hbegin]
    intro hsome
    have := List.length_pos_iff.mpr hsome
    rw [List.length_drop] at this
    omega
  · intro hnone
    change (if _ then _ else _) = none at hnone
    split at hnone
    · cases hnone
    · exact List.drop_eq_nil_of_le (by omega)
  · intro a ha
    change (if _ then _ else _) = some a at ha
    split at ha
    · cases ha
      exact .inl ⟨rfl, rfl⟩
    · cases ha
  · intro a ha hended
    change (if _ then _ else _) = some a at ha
    split at ha
    · cases ha
      cases hended
    · cases ha
  · have hwhole := slice_writeAt memory 0 (file.take (2 * blockLen))
    have hdata : (init blockLen memory file).data = (file.take (2 * blockLen)).drop (skipped file) := by
      rw [data, hbegin, hend]
      have hsplit := slice_eq_append
        (hwhole.trans (List.take_append_drop (skipped file) _).symm)
      rw [List.length_take, List.length_drop, Nat.zero_add, min_eq_left (by omega)] at hsplit
      exact hsplit.2
    rw [text, hdata, hrest, body_eq_drop, ← List.drop_append_of_le_length (by omega),
      List.take_append_drop]

end LineReader

end HftSystem
