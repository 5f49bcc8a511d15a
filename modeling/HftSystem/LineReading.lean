import HftSystem.LineReader

/-!
Whole runs of the line reader with its two threads, in any order of their steps.
-/
namespace HftSystem

open ByteMemory Segments

namespace LineReading

open LineReader Transitions

variable {blockLen : ℕ} {file : List UInt8} {done : List (List UInt8)} {s : LineReading}

/-- `done` are the lines of the file that have been returned, each as it stands there. -/
structure Inv (blockLen : ℕ) (file : List UInt8) (done : List (List UInt8)) (s : LineReading) :
    Prop where
  split : segments 10 (body file) = done ++ segments 10 (s.reader.text blockLen)
  lines_eq : s.lines = done.map cLine
  short : ∀ segment ∈ done, segment.length < blockLen
  sound : Sound blockLen (if s.waiting then blockLen else 2 * blockLen) s.reader
  wait : s.waiting = true → s.ended = none ∧ s.reader.dataBegin < s.reader.dataEnd ∧
    ∃ a, s.reader.reader = some a ∧ (a.ended = true → a.readByteCount ≠ none)
  fileLine_eq : s.ended = none →
    s.reader.fileLine = UInt32.ofNat (done.length + if s.waiting then 1 else 0)
  noMore : s.ended = some .noMoreLines → s.reader.text blockLen = []
  tooLong : ∀ n, s.ended = some (.lineLengthLimitExceeded n) →
    n = lineNumber (done.length + 1) ∧ s.reader.text blockLen ≠ [] ∧
      blockLen ≤ (first 10 (s.reader.text blockLen)).length

theorem inv_start (hblock : 2 ≤ blockLen) (memory : Memory) (file : List UInt8) :
    Inv blockLen file [] (start blockLen memory file) := by
  obtain ⟨hsound, htext⟩ := sound_init hblock memory file
  refine ⟨?_, rfl, nofun, hsound, nofun, fun _ => rfl, nofun, nofun⟩
  rw [List.nil_append]
  exact congrArg (segments 10) htext.symm

theorem text_ne_nil {r : LineReader} (hlt : r.dataBegin < r.dataEnd) : r.text blockLen ≠ [] := by
  intro hnil
  have hlength := r.length_data
  rw [(List.append_eq_nil_iff.mp hnil).1] at hlength
  rw [List.length_nil] at hlength
  omega

/-- A call that has its data returns one more line or ends the run. -/
theorem Inv.deliver (h : Inv blockLen file done s) {r : LineReader} (hended : s.ended = none)
    (hsound : Sound blockLen (2 * blockLen) r) (hlt : r.dataBegin < r.dataEnd)
    (hbegin : r.dataBegin < blockLen) (htext : r.text blockLen = s.reader.text blockLen)
    (hline : r.fileLine = UInt32.ofNat (done.length + 1)) :
    (s.deliver blockLen r).ended.isSome ∧ Inv blockLen file done (s.deliver blockLen r) ∨
      (s.deliver blockLen r).ended = none ∧
        ∃ segment, Inv blockLen file (done ++ [segment]) (s.deliver blockLen r) := by
  have hne : r.text blockLen ≠ [] := text_ne_nil hlt
  unfold LineReading.deliver
  rcases hsound.cutLine hlt hbegin with ⟨hlong, hcut⟩ | ⟨hshort, r', hcut, hsound', htext', hline'⟩
  · rw [hcut]
    refine .inl ⟨rfl, ?_, h.lines_eq, h.short, hsound, nofun, nofun, nofun, ?_⟩
    · rw [htext]
      exact h.split
    · rintro n ⟨⟩
      exact ⟨congrArg UInt32.toInt32 hline, hne, hlong⟩
  · rw [hcut]
    refine .inr ⟨hended, first 10 (r.text blockLen), ?_, ?_, ?_, hsound', nofun, ?_, ?_, ?_⟩
    · rw [h.split, ← htext, segments_of_ne_nil hne, ← htext', List.append_assoc,
        List.singleton_append]
    · rw [List.map_append, ← h.lines_eq]
      rfl
    · intro segment hsegment
      rcases List.mem_append.mp hsegment with hold | hnew
      · exact h.short segment hold
      · rw [List.mem_singleton.mp hnew]
        exact hshort
    · intro _
      rw [List.length_append]
      exact hline'.trans hline
    · intro hend
      cases hended.symm.trans hend
    · intro n hend
      cases hended.symm.trans hend

/-- The run has ended, or has come further than with a number of lines. -/
def Beyond (n : ℕ) (s : LineReading) : Prop := s.ended.isSome ∨ n < s.lines.length

/-- The worker has read the block that the caller waits for. -/
def Answered (s : LineReading) : Prop :=
  ∃ a count, s.reader.reader = some a ∧ a.readByteCount = some count

theorem Inv.beyond_deliver (h : Inv blockLen file done s) {r : LineReader}
    (hended : s.ended = none) (hsound : Sound blockLen (2 * blockLen) r)
    (hlt : r.dataBegin < r.dataEnd) (hbegin : r.dataBegin < blockLen)
    (htext : r.text blockLen = s.reader.text blockLen)
    (hline : r.fileLine = UInt32.ofNat (done.length + 1)) :
    (∃ done', Inv blockLen file done' (s.deliver blockLen r)) ∧
      Beyond s.lines.length (s.deliver blockLen r) := by
  rcases h.deliver hended hsound hlt hbegin htext hline with ⟨hsome, h'⟩ | ⟨-, segment, h'⟩
  · exact ⟨⟨done, h'⟩, .inl hsome⟩
  · refine ⟨⟨_, h'⟩, .inr ?_⟩
    rw [h.lines_eq, h'.lines_eq, List.length_map, List.length_map, List.length_append]
    exact Nat.lt_succ_self _

/-! ### One step -/

theorem Inv.worker (h : Inv blockLen file done s) (hpos : 0 < blockLen) :
    Inv blockLen file done (s.step blockLen .worker) := by
  have hlimit : (if s.waiting then blockLen else 2 * blockLen) ≤ 2 * blockLen := by
    split
    · omega
    · exact le_refl _
  obtain ⟨hsound, htext⟩ := h.sound.work hpos hlimit
  refine ⟨?_, h.lines_eq, h.short, hsound, ?_, ?_, ?_, ?_⟩
  · change _ = _ ++ segments 10 ((s.reader.work blockLen).text blockLen)
    rw [htext]
    exact h.split
  · intro hwait
    obtain ⟨hended, hlt, a, ha, hanswer⟩ := h.wait hwait
    refine ⟨hended, ?_⟩
    change (s.reader.work blockLen).dataBegin < (s.reader.work blockLen).dataEnd ∧
      ∃ a, (s.reader.work blockLen).reader = some a ∧ _
    rcases work_cases blockLen s.reader with hsame | ⟨-, n, -, -, -, hwork⟩
    · rw [hsame]
      exact ⟨hlt, a, ha, hanswer⟩
    · rw [hwork]
      exact ⟨hlt, _, rfl, fun _ => nofun⟩
  · intro hended
    change (s.reader.work blockLen).fileLine = _
    rcases work_cases blockLen s.reader with hsame | ⟨-, n, -, -, -, hwork⟩
    · rw [hsame]
      exact h.fileLine_eq hended
    · rw [hwork]
      exact h.fileLine_eq hended
  · intro hended
    exact htext.trans (h.noMore hended)
  · intro n hended
    change n = _ ∧ (s.reader.work blockLen).text blockLen ≠ [] ∧
      blockLen ≤ (first 10 ((s.reader.work blockLen).text blockLen)).length
    rw [htext]
    exact h.tooLong n hended

/-- The worker does not leave a waiting caller without an answer. -/
theorem Inv.answered_worker (h : Inv blockLen file done s) (hwait : s.waiting = true) :
    Answered (s.step blockLen .worker) := by
  obtain ⟨-, -, a, ha, hanswer⟩ := h.wait hwait
  change ∃ a' count, (s.reader.work blockLen).reader = some a' ∧ a'.readByteCount = some count
  cases hcount : a.readByteCount with
  | some count =>
    rcases work_cases blockLen s.reader with hsame | ⟨-, n, -, -, -, hwork⟩
    · rw [hsame]
      exact ⟨a, count, ha, hcount⟩
    · rw [hwork]
      exact ⟨_, _, rfl, rfl⟩
  | none =>
    have hdesired : a.desiredByteCount = some blockLen := by
      rcases h.sound.exchange a ha with ⟨hdesired, -⟩ | ⟨-, count, hsome, -⟩
      · exact hdesired
      · cases hcount.symm.trans hsome
    have hopen : a.ended = false := by
      cases hended : a.ended with
      | false => rfl
      | true => exact absurd hcount (hanswer hended)
    unfold work
    rw [ha]
    dsimp only
    rw [hopen, hdesired]
    exact ⟨_, _, rfl, rfl⟩

theorem Inv.call (h : Inv blockLen file done s) (hended : s.ended = none)
    (hwait : s.waiting = false) :
    ∃ done', Inv blockLen file done' (s.call blockLen) ∧
      (Beyond s.lines.length (s.call blockLen) ∨
        (s.call blockLen).waiting = true ∧ (s.call blockLen).lines = s.lines) := by
  have hsound := h.sound
  have hfileLine := h.fileLine_eq hended
  rw [hwait] at hsound hfileLine
  have hnumber : s.reader.fileLine + 1 = UInt32.ofNat (done.length + 1) := by
    rw [hfileLine, if_neg Bool.false_ne_true, Nat.add_zero, UInt32.ofNat_add]
    rfl
  have hle := hsound.begin_le
  unfold LineReading.call
  by_cases hempty : s.reader.dataBegin = s.reader.dataEnd
  · rw [if_pos hempty]
    have hrest : s.reader.rest blockLen = [] := by
      by_contra hsome
      have hfull := hsound.full hsome
      omega
    have hdata : s.reader.data = [] := by
      rw [data, hempty, Nat.sub_self, slice_zero]
    refine ⟨done, ⟨h.split, h.lines_eq, h.short, h.sound, ?_, ?_, ?_, ?_⟩, .inl (.inl rfl)⟩
    · intro hwaits
      cases hwait.symm.trans hwaits
    · intro hnone
      cases hnone
    · intro _
      change s.reader.data ++ s.reader.rest blockLen = []
      rw [hdata, hrest, List.append_nil]
    · intro n hend
      cases hend
  · rw [if_neg hempty]
    -- the line number is all that has changed so far
    have hnext : Sound blockLen (2 * blockLen)
        { s.reader with fileLine := s.reader.fileLine + 1 } :=
      ⟨hsound.begin_le, hsound.end_le, hsound.full, hsound.finished, hsound.exchange,
        hsound.exhausted⟩
    by_cases hbegin : s.reader.dataBegin ≥ blockLen
    · rw [if_pos hbegin]
      obtain ⟨hshift, htext, hlt, hanswer⟩ := hnext.shift hbegin hempty
      cases hreader : s.reader.reader with
      | none =>
        obtain ⟨⟨done', h'⟩, hbeyond⟩ := h.beyond_deliver hended (hshift.widen hreader) hlt
          (hlt.trans_le hshift.end_le) htext hnumber
        exact ⟨done', h', .inl hbeyond⟩
      | some a =>
        refine ⟨done, ⟨?_, h.lines_eq, h.short, hshift, ?_, ?_, ?_, ?_⟩, .inr ⟨rfl, rfl⟩⟩
        · exact h.split.trans (congrArg (fun l => done ++ segments 10 l) htext.symm)
        · intro _
          exact ⟨hended, hlt, a, hreader, hanswer a hreader⟩
        · intro _
          exact hnumber
        · intro hend
          cases hended.symm.trans hend
        · intro n hend
          cases hended.symm.trans hend
    · rw [if_neg hbegin]
      have hlt : s.reader.dataBegin < s.reader.dataEnd := by omega
      obtain ⟨⟨done', h'⟩, hbeyond⟩ := h.beyond_deliver hended hnext hlt (not_le.mp hbegin) rfl
        hnumber
      exact ⟨done', h', .inl hbeyond⟩

theorem Inv.resume (h : Inv blockLen file done s) (hwait : s.waiting = true) :
    ∃ done', Inv blockLen file done' (s.resume blockLen) ∧
      (Beyond s.lines.length (s.resume blockLen) ∨ s.resume blockLen = s ∧ ¬ Answered s) := by
  obtain ⟨hended, hlt, a, ha, -⟩ := h.wait hwait
  have hsound := h.sound
  have hfileLine := h.fileLine_eq hended
  rw [hwait] at hsound hfileLine
  unfold LineReading.resume
  rw [ha]
  dsimp only
  cases hcount : a.readByteCount with
  | none =>
    refine ⟨done, h, .inr ⟨rfl, ?_⟩⟩
    rintro ⟨a', count, ha', hcount'⟩
    cases ha.symm.trans ha'
    cases hcount.symm.trans hcount'
  | some count =>
    obtain ⟨hrefill, htext⟩ := hsound.refill hlt ha hcount
    obtain ⟨⟨done', h'⟩, hbeyond⟩ := h.beyond_deliver hended hrefill
      (Nat.lt_add_right count hlt) (hlt.trans_le hsound.end_le) htext hfileLine
    exact ⟨done', h', .inl hbeyond⟩

theorem step_caller (blockLen : ℕ) (s : LineReading) :
    s.ended.isSome ∧ s.step blockLen .caller = s ∨
      s.ended = none ∧ s.waiting = true ∧ s.step blockLen .caller = s.resume blockLen ∨
      s.ended = none ∧ s.waiting = false ∧ s.step blockLen .caller = s.call blockLen := by
  unfold LineReading.step
  cases hended : s.ended with
  | some ended => exact .inl ⟨rfl, rfl⟩
  | none =>
    cases hwait : s.waiting with
    | true => exact .inr (.inl ⟨rfl, rfl, rfl⟩)
    | false => exact .inr (.inr ⟨rfl, rfl, rfl⟩)

theorem Inv.step (h : Inv blockLen file done s) (hpos : 0 < blockLen) (thread : ReaderThread) :
    ∃ done', Inv blockLen file done' (s.step blockLen thread) := by
  cases thread with
  | worker => exact ⟨done, h.worker hpos⟩
  | caller =>
    rcases step_caller blockLen s with ⟨-, hstep⟩ | ⟨-, hwait, hstep⟩ | ⟨hended, hwait, hstep⟩
    · rw [hstep]
      exact ⟨done, h⟩
    · rw [hstep]
      obtain ⟨done', h', -⟩ := h.resume hwait
      exact ⟨done', h'⟩
    · rw [hstep]
      obtain ⟨done', h', -⟩ := h.call hended hwait
      exact ⟨done', h'⟩

/-! ### What the lines are -/

/-- The lines that can be returned, and how their calls end. A line as long as a block ends them
with its number. -/
def outcome (blockLen : ℕ) (segs : List (List UInt8)) : List (List UInt8) × LinesEnd :=
  let good := segs.takeWhile (fun segment => segment.length < blockLen)
  (good.map cLine,
    if good.length = segs.length then .noMoreLines
    else .lineLengthLimitExceeded (lineNumber (good.length + 1)))

theorem takeWhile_done_append (hshort : ∀ segment ∈ done, segment.length < blockLen)
    (segs : List (List UInt8)) :
    (done ++ segs).takeWhile (fun segment => segment.length < blockLen) =
      done ++ segs.takeWhile (fun segment => segment.length < blockLen) :=
  List.takeWhile_append_of_pos (fun segment hmem => decide_eq_true (hshort segment hmem))

theorem Inv.lines_prefix (h : Inv blockLen file done s) :
    s.lines <+: (outcome blockLen (segments 10 (body file))).1 := by
  rw [h.lines_eq, outcome, h.split, takeWhile_done_append h.short]
  exact (List.prefix_append _ _).map cLine

theorem Inv.outcome_of_ended (h : Inv blockLen file done s) {ended : LinesEnd}
    (hended : s.ended = some ended) :
    outcome blockLen (segments 10 (body file)) = (s.lines, ended) := by
  unfold outcome
  dsimp only
  rw [h.split, takeWhile_done_append h.short]
  cases ended with
  | noMoreLines =>
    rw [h.noMore hended]
    change ((done ++ []).map cLine, if (done ++ []).length = (done ++ []).length then _ else _) = _
    rw [if_pos rfl, List.append_nil, h.lines_eq]
  | lineLengthLimitExceeded n =>
    obtain ⟨hn, hne, hlong⟩ := h.tooLong n hended
    have hstop : (segments 10 (s.reader.text blockLen)).takeWhile
        (fun segment => segment.length < blockLen) = [] := by
      rw [segments_of_ne_nil hne]
      exact List.takeWhile_cons_of_neg (by simpa using hlong)
    have hmore : (segments 10 (s.reader.text blockLen)).length ≠ 0 := by
      rw [segments_of_ne_nil hne]
      exact Nat.succ_ne_zero _
    rw [hstop, List.append_nil, List.length_append, if_neg (by omega), h.lines_eq, hn]

/-! ### Every schedule -/

theorem inv_run (hblock : 2 ≤ blockLen) (memory : Memory) (file : List UInt8)
    (schedule : List ReaderThread) :
    ∃ done, Inv blockLen file done (schedule.foldl (step blockLen) (start blockLen memory file)) :=
  foldl_preserves (P := fun s => ∃ done, Inv blockLen file done s)
    (fun _ thread ⟨_, h⟩ => h.step (by omega) thread) ⟨[], inv_start hblock memory file⟩ schedule

/-- In whatever order the threads take their steps, the lines returned are the first lines of the
file behind its byte order mark, and the calls end as these lines say. A line that ends them is
reported under its number as far as an `int` holds it. In between, the assertions of `next_line`
hold. -/
theorem lines_of_schedule (hblock : 2 ≤ blockLen) (memory : Memory) (file : List UInt8)
    (schedule : List ReaderThread) :
    let s := schedule.foldl (step blockLen) (start blockLen memory file)
    s.lines <+: (outcome blockLen (segments 10 (body file))).1 ∧
      (∀ ended, s.ended = some ended →
        outcome blockLen (segments 10 (body file)) = (s.lines, ended)) ∧
      (∀ n, s.ended = some (.lineLengthLimitExceeded n) → s.lines.length + 1 < 2 ^ 31 →
        n.toInt = s.lines.length + 1) ∧
      s.reader.dataBegin ≤ s.reader.dataEnd ∧ s.reader.dataEnd ≤ 2 * blockLen := by
  intro s
  obtain ⟨done, h⟩ := inv_run hblock memory file schedule
  refine ⟨h.lines_prefix, fun _ => h.outcome_of_ended, fun n hended hn => ?_, h.sound.begin_le, ?_⟩
  · have hlength : s.lines.length = done.length := by rw [h.lines_eq, List.length_map]
    rw [(h.tooLong n hended).1, ← hlength, lineNumber_toInt hn]
    rfl
  · refine h.sound.end_le.trans ?_
    split
    · omega
    · exact le_refl _

/-- Four lines in blocks of two bytes; the caller waits for the worker three times, and the last
line has no line break. -/
theorem lines_of_schedule_short_blocks :
    let s := [.caller, .caller, .worker, .caller, .caller, .worker, .caller, .caller, .worker,
      .caller, .caller].foldl (step 2) (start 2 (fun _ => 0) [97, 10, 98, 10, 99, 10, 100])
    s.lines = [[97], [98], [99], [100]] ∧ s.ended = some .noMoreLines ∧
      outcome 2 (segments 10 (body [97, 10, 98, 10, 99, 10, 100])) = (s.lines, .noMoreLines) := by
  intro s
  have hended : s.ended = some .noMoreLines := by decide +kernel
  have houtcome := (lines_of_schedule (show 2 ≤ 2 by decide) (fun _ => 0)
    [97, 10, 98, 10, 99, 10, 100] [.caller, .caller, .worker, .caller, .caller, .worker, .caller,
      .caller, .worker, .caller, .caller]).2.1 _ hended
  exact ⟨by decide +kernel, hended, houtcome⟩

/-! ### No deadlock -/

/-- A step that does not bring the run further is one of the worker, who answers a waiting caller,
or one of a caller who has to wait. -/
theorem Inv.effect (h : Inv blockLen file done s) (thread : ReaderThread) :
    Beyond s.lines.length (s.step blockLen thread) ∨
      (s.step blockLen thread).lines = s.lines ∧
        (thread = .worker ∧ (s.step blockLen thread).waiting = s.waiting ∧
            (s.waiting = true → Answered (s.step blockLen thread)) ∨
          thread = .caller ∧ (s.step blockLen thread).waiting = true ∧
            ¬ (s.waiting = true ∧ Answered s)) := by
  cases thread with
  | worker => exact .inr ⟨rfl, .inl ⟨rfl, rfl, h.answered_worker⟩⟩
  | caller =>
    rcases step_caller blockLen s with ⟨hsome, hstep⟩ | ⟨-, hwait, hstep⟩ | ⟨hended, hwait, hstep⟩
    · rw [hstep]
      exact .inl (.inl hsome)
    · rw [hstep]
      obtain ⟨-, -, hbeyond | ⟨hsame, hunanswered⟩⟩ := h.resume hwait
      · exact .inl hbeyond
      · rw [hsame]
        exact .inr ⟨rfl, .inr ⟨rfl, hwait, fun hboth => hunanswered hboth.2⟩⟩
    · rw [hstep]
      obtain ⟨-, -, hbeyond | ⟨hwaits, hlines⟩⟩ := h.call hended hwait
      · exact .inl hbeyond
      · refine .inr ⟨hlines, .inr ⟨rfl, hwaits, ?_⟩⟩
        rintro ⟨hwait', -⟩
        cases hwait.symm.trans hwait'

/-- How far the next line is: not asked for, waited for, read, returned. -/
def Stage (n : ℕ) (i : ℕ) (s : LineReading) : Prop :=
  Beyond n s ∨ n ≤ s.lines.length ∧ i < 3 ∧
    (1 ≤ i → s.waiting = true) ∧ (2 ≤ i → Answered s)

theorem ended_step (hsome : s.ended.isSome) (thread : ReaderThread) :
    (s.step blockLen thread).ended.isSome := by
  cases thread with
  | worker => exact hsome
  | caller =>
    unfold LineReading.step
    rw [if_pos hsome]
    exact hsome

theorem Stage.step {n i : ℕ} (hstage : Stage n i s) (h : Inv blockLen file done s)
    (thread : ReaderThread) : Stage n i (s.step blockLen thread) := by
  have hn : s.ended.isSome ∨ n ≤ s.lines.length := by
    rcases hstage with (hsome | hlt) | ⟨hle, -⟩
    · exact .inl hsome
    · exact .inr hlt.le
    · exact .inr hle
  rcases hn with hsome | hle
  · exact .inl (.inl (ended_step hsome thread))
  rcases h.effect thread with (hsome | hlt) | ⟨hlines, hwhich⟩
  · exact .inl (.inl hsome)
  · exact .inl (.inr (hle.trans_lt hlt))
  rcases hstage with (hsome | hlt) | ⟨-, hi, hwait, hanswer⟩
  · exact .inl (.inl (ended_step hsome thread))
  · exact .inl (.inr (hlines ▸ hlt))
  · refine .inr ⟨hlines ▸ hle, hi, ?_⟩
    rcases hwhich with ⟨-, hsame, hworker⟩ | ⟨-, hwaits, hnot⟩
    · exact ⟨fun hone => hsame.trans (hwait hone), fun htwo => hworker (hwait (by omega))⟩
    · refine ⟨fun _ => hwaits, fun htwo => ?_⟩
      exact absurd ⟨hwait (by omega), hanswer htwo⟩ hnot

/-- The steps that a line takes in the slowest case. -/
def round : List ReaderThread := [.caller, .worker, .caller]

theorem Stage.next {n i : ℕ} (hstage : Stage n i s) (h : Inv blockLen file done s)
    {thread : ReaderThread} (hround : round[i]? = some thread) :
    Stage n (i + 1) (s.step blockLen thread) := by
  have hkeep := hstage.step h thread
  rcases hkeep with hbeyond | ⟨hle, hi, hwait, hanswer⟩
  · exact .inl hbeyond
  rcases h.effect thread with (hsome | hlt) | ⟨hlines, hwhich⟩
  · exact .inl (.inl hsome)
  · refine .inl ?_
    rcases hstage with (hsome | hlt') | ⟨hle', -⟩
    · exact .inl (ended_step hsome thread)
    · exact .inr (hlt'.trans hlt)
    · exact .inr (hle'.trans_lt hlt)
  rcases hstage with (hsome | hlt) | ⟨-, -, hwait', hanswer'⟩
  · exact .inl (.inl (ended_step hsome thread))
  · exact .inl (.inr (hlines ▸ hlt))
  match i, hi, hround with
  | 0, _, hround =>
    cases hround
    rcases hwhich with ⟨hworker, -⟩ | ⟨-, hwaits, -⟩
    · cases hworker
    · exact .inr ⟨hle, by omega, fun _ => hwaits, fun htwo => absurd htwo (by omega)⟩
  | 1, _, hround =>
    cases hround
    exact .inr ⟨hle, by omega, fun _ => hwait (le_refl _),
      fun _ => h.answered_worker (hwait' (le_refl _))⟩
  | 2, _, hround =>
    cases hround
    rcases hwhich with ⟨hworker, -⟩ | ⟨-, -, hnot⟩
    · cases hworker
    · exact absurd ⟨hwait' (by omega), hanswer' (le_refl _)⟩ hnot

/-- Every round of the two threads brings the run further, whatever stands in between. -/
theorem beyond_of_round (hpos : 0 < blockLen) (h : Inv blockLen file done s)
    {schedule : List ReaderThread} (hround : round.Sublist schedule) :
    Beyond s.lines.length (schedule.foldl (step blockLen) s) := by
  have hstages : (∃ done, Inv blockLen file done (schedule.foldl (step blockLen) s)) ∧
      Stage s.lines.length (0 + round.length) (schedule.foldl (step blockLen) s) := foldl_stages
    (P := fun i s' => (∃ done, Inv blockLen file done s') ∧ Stage s.lines.length i s')
    (fun i s' thread ⟨⟨_, h'⟩, hstage⟩ => ⟨h'.step hpos thread, hstage.step h' thread⟩)
    hround ⟨⟨done, h⟩, .inr ⟨le_refl _, (by omega : (0 : ℕ) < 3), nofun, nofun⟩⟩
    (fun j thread hj s' ⟨⟨_, h'⟩, hstage⟩ => by
      rw [Nat.zero_add] at hstage ⊢
      exact ⟨h'.step hpos thread, hstage.next h' hj⟩)
  rcases hstages.2 with hbeyond | ⟨-, hthree, -⟩
  · exact hbeyond
  · exact absurd hthree (by decide)

theorem ended_or_le_of_rounds (hblock : 2 ≤ blockLen) (memory : Memory) (file : List UInt8)
    {rounds : List (List ReaderThread)} (hfair : ∀ turn ∈ rounds, round.Sublist turn) :
    let s := rounds.flatten.foldl (step blockLen) (start blockLen memory file)
    s.ended.isSome ∨ rounds.length ≤ s.lines.length := by
  induction rounds using List.reverseRecOn with
  | nil => exact .inr (Nat.zero_le _)
  | append_singleton rounds turn ih =>
    obtain ⟨hbefore, hlast⟩ := List.forall_mem_append.mp hfair
    obtain ⟨done, h⟩ := inv_run hblock memory file rounds.flatten
    have hbeyond := beyond_of_round (by omega) h (hlast turn (List.mem_singleton_self turn))
    intro s
    have hs : s = turn.foldl (step blockLen)
        (rounds.flatten.foldl (step blockLen) (start blockLen memory file)) := by
      rw [← List.foldl_append]
      simp only [s, List.flatten_append, List.flatten_singleton]
    rw [hs, List.length_append, List.length_singleton]
    rcases ih hbefore with hsome | hle
    · -- an ended run stays as it is
      exact .inl (foldl_preserves (P := fun s : LineReading => s.ended.isSome = true)
        (fun _ thread hended => ended_step hended thread) hsome turn)
    · rcases hbeyond with hsome | hlt
      · exact .inl hsome
      · exact .inr (hle.trans_lt hlt)

theorem inv_ended_of_rounds (hblock : 2 ≤ blockLen) (memory : Memory) (file : List UInt8)
    {rounds : List (List ReaderThread)} (hfair : ∀ turn ∈ rounds, round.Sublist turn)
    (hmany : (segments 10 (body file)).length < rounds.length) :
    let s := rounds.flatten.foldl (step blockLen) (start blockLen memory file)
    ∃ done ended, Inv blockLen file done s ∧ s.ended = some ended := by
  intro s
  obtain ⟨done, h⟩ := inv_run hblock memory file rounds.flatten
  have hsome : s.ended.isSome := by
    rcases ended_or_le_of_rounds hblock memory file hfair with hsome | hle
    · exact hsome
    · have hlength := h.lines_prefix.length_le
      have hshorter := (List.takeWhile_prefix (fun segment : List UInt8 =>
        decide (segment.length < blockLen)) (l := segments 10 (body file))).length_le
      rw [outcome, List.length_map] at hlength
      omega
  obtain ⟨ended, hended⟩ := Option.isSome_iff_exists.mp hsome
  exact ⟨done, ended, h, hended⟩

/-- The whole file is read once the schedule has a round for each of its lines and one more. On the
way each round brings the run further, from wherever the steps before it have left it. -/
theorem outcome_of_rounds (hblock : 2 ≤ blockLen) (memory : Memory) (file : List UInt8)
    (rounds : List (List ReaderThread)) (hfair : ∀ turn ∈ rounds, round.Sublist turn)
    (hmany : (segments 10 (body file)).length < rounds.length) :
    let s := rounds.flatten.foldl (step blockLen) (start blockLen memory file)
    (∃ ended, s.ended = some ended ∧
        (s.lines, ended) = outcome blockLen (segments 10 (body file))) ∧
      ∀ (before turn : List ReaderThread), round.Sublist turn →
        let s := before.foldl (step blockLen) (start blockLen memory file)
        Beyond s.lines.length (turn.foldl (step blockLen) s) := by
  refine ⟨?_, fun before turn hround => ?_⟩
  · obtain ⟨done, ended, h, hended⟩ := inv_ended_of_rounds hblock memory file hfair hmany
    exact ⟨ended, hended, (h.outcome_of_ended hended).symm⟩
  · obtain ⟨done, h⟩ := inv_run hblock memory file before
    exact beyond_of_round (by omega) h hround

theorem outcome_of_rounds_long_line :
    ∃ ended, ((List.replicate 3 [.caller, .worker, .worker, .caller]).flatten.foldl (step 3)
        (start 3 (fun _ => 0) [97, 10, 98, 99, 100, 10])).ended = some ended ∧
      ended = .lineLengthLimitExceeded 2 := by
  obtain ⟨⟨ended, hended, houtcome⟩, -⟩ := outcome_of_rounds (show 2 ≤ 3 by decide) (fun _ => 0)
    [97, 10, 98, 99, 100, 10] (List.replicate 3 [.caller, .worker, .worker, .caller])
    (by decide) (by decide)
  exact ⟨ended, hended, congrArg Prod.snd houtcome⟩

end LineReading

end HftSystem
