import HftSystem.StreamConfig
import Mathlib.Data.List.Perm.Subperm

/-!
Tables of streams and the files they are written to. The three columns may stand
anywhere among others, a cell may have blanks around its text, a line may end with a
carriage return, the file may begin with a byte order mark and its last line break may be
missing: the program reads the rows of the table back.
-/
namespace HftSystem

open CSVReader Segments ByteMemory StreamConfig

/-- A text with blanks around it. -/
structure Cell where
  left : List UInt8
  text : List UInt8
  right : List UInt8
  left_blank : ∀ c ∈ left, isTrimChar c = true
  right_blank : ∀ c ∈ right, isTrimChar c = true
  plain : ∀ c ∈ text, c ≠ 0 ∧ c ≠ 10 ∧ c ≠ 13 ∧ c ≠ 44
  head_tight : ∀ c, text.head? = some c → isTrimChar c = false
  last_tight : ∀ c, text.getLast? = some c → isTrimChar c = false

namespace Cell

def bytes (cell : Cell) : List UInt8 := cell.left ++ cell.text ++ cell.right

theorem trim_bytes (cell : Cell) : trim cell.bytes = cell.text := by
  have hright : (cell.text ++ cell.right).rdropWhile isTrimChar = cell.text := by
    rw [List.rdropWhile, List.reverse_append,
      List.dropWhile_append_of_pos (fun c hc => cell.right_blank c (List.mem_reverse.mp hc))]
    cases hlast : cell.text.reverse with
    | nil => exact (List.reverse_eq_nil_iff.mp hlast).symm
    | cons c l =>
      have hblank : ¬ isTrimChar c = true := by
        have hget : cell.text.getLast? = some c := by
          rw [← List.head?_reverse, hlast]
          rfl
        rw [cell.last_tight c hget]
        exact Bool.false_ne_true
      rw [List.dropWhile_cons_of_neg hblank, ← hlast, List.reverse_reverse]
  rw [trim, bytes, List.append_assoc, List.dropWhile_append_of_pos cell.left_blank]
  cases htext : cell.text with
  | nil =>
    rw [List.nil_append, List.dropWhile_eq_nil_iff.mpr cell.right_blank]
    rfl
  | cons c l =>
    have hblank : ¬ isTrimChar c = true := by
      rw [cell.head_tight c (by rw [htext]; rfl)]
      exact Bool.false_ne_true
    rw [List.cons_append, List.dropWhile_cons_of_neg hblank, ← List.cons_append, ← htext, hright]

/-- A byte that is neither a blank nor one that means something in the file. -/
def isBare (c : UInt8) : Bool := c ≠ 0 && c ≠ 10 && c ≠ 13 && c ≠ 44 && !isTrimChar c

/-- A text without blanks. -/
def bare (text : List UInt8) (h : text.all isBare = true) : Cell :=
  have hbare : ∀ c ∈ text, (c ≠ 0 ∧ c ≠ 10 ∧ c ≠ 13 ∧ c ≠ 44) ∧ isTrimChar c = false := by
    intro c hc
    simpa [isBare, and_assoc] using List.all_eq_true.mp h c hc
  { left := []
    text
    right := []
    left_blank := nofun
    right_blank := nofun
    plain := fun c hc => (hbare c hc).1
    head_tight := fun c hc => (hbare c (List.mem_of_mem_head? hc)).2
    last_tight := fun c hc => (hbare c (List.mem_of_getLast? hc)).2 }

theorem isTrimChar_ne {c : UInt8} (h : isTrimChar c = true) :
    c ≠ 0 ∧ c ≠ 10 ∧ c ≠ 13 ∧ c ≠ 44 := by
  refine ⟨?_, ?_, ?_, ?_⟩
  all_goals
    rintro rfl
    exact absurd h (by decide)

theorem bytes_plain (cell : Cell) : ∀ c ∈ cell.bytes, c ≠ 0 ∧ c ≠ 10 ∧ c ≠ 13 ∧ c ≠ 44 := by
  intro c hc
  rcases List.mem_append.mp hc with hc | hc
  · rcases List.mem_append.mp hc with hc | hc
    · exact isTrimChar_ne (cell.left_blank c hc)
    · exact cell.plain c hc
  · exact isTrimChar_ne (cell.right_blank c hc)

end Cell

/-- The cells of a line, and whether a carriage return stands behind them. -/
structure TableLine where
  cells : List Cell
  carriageReturn : Bool

namespace TableLine

def text (line : TableLine) : List UInt8 := [44].intercalate (line.cells.map Cell.bytes)

def bytes (line : TableLine) : List UInt8 :=
  line.text ++ if line.carriageReturn then [13] else []

theorem columns_text {line : TableLine} (hne : line.cells ≠ []) :
    columns line.text = line.cells.map Cell.bytes := by
  refine List.splitOn_intercalate 44 ?_ (by simpa using hne)
  intro l hl hmem
  obtain ⟨cell, -, rfl⟩ := List.mem_map.mp hl
  exact (cell.bytes_plain 44 hmem).2.2.2 rfl

theorem headerNames_text {line : TableLine} (hne : line.cells ≠ []) :
    headerNames line.text = line.cells.map Cell.text := by
  rw [headerNames, columns_text hne, List.map_map]
  exact List.map_congr_left (fun cell _ => cell.trim_bytes)

/-- A byte of an intercalated list is a separator or stands in one of its parts. -/
theorem mem_intercalate_singleton {sep c : UInt8} {ls : List (List UInt8)}
    (h : c ∈ [sep].intercalate ls) : c = sep ∨ ∃ l ∈ ls, c ∈ l := by
  induction ls with
  | nil => cases h
  | cons l ls ih =>
    cases ls with
    | nil =>
      rw [List.intercalate_singleton] at h
      exact .inr ⟨l, List.mem_singleton_self l, h⟩
    | cons l' ls =>
      rw [List.intercalate_cons_cons, List.append_assoc, List.mem_append, List.mem_append] at h
      rcases h with h | h | h
      · exact .inr ⟨l, List.mem_cons_self, h⟩
      · exact .inl (List.mem_singleton.mp h)
      · rcases ih h with heq | ⟨l'', hl'', hc⟩
        · exact .inl heq
        · exact .inr ⟨l'', List.mem_cons_of_mem _ hl'', hc⟩

theorem text_plain (line : TableLine) : ∀ c ∈ line.text, c ≠ 0 ∧ c ≠ 10 ∧ c ≠ 13 := by
  intro c hc
  rcases mem_intercalate_singleton hc with rfl | ⟨l, hl, hmem⟩
  · decide
  · obtain ⟨cell, -, rfl⟩ := List.mem_map.mp hl
    obtain ⟨hzero, hbreak, hreturn, -⟩ := cell.bytes_plain c hmem
    exact ⟨hzero, hbreak, hreturn⟩

/-- The line reader returns the text of the line. -/
theorem cLine_bytes (line : TableLine) : LineReader.cLine line.bytes = line.text := by
  have hzero : line.text.takeWhile (fun b => b ≠ 0) = line.text :=
    List.takeWhile_eq_self_iff.mpr (fun c hc => decide_eq_true (line.text_plain c hc).1)
  unfold LineReader.cLine bytes
  cases line.carriageReturn with
  | true =>
    rw [if_pos rfl, List.getLast?_concat, if_pos rfl, List.dropLast_concat]
    exact hzero
  | false =>
    rw [if_neg Bool.false_ne_true, List.append_nil, if_neg]
    · exact hzero
    · intro hlast
      exact (line.text_plain 13 (List.mem_of_getLast? hlast)).2.2 rfl

theorem break_notMem_bytes (line : TableLine) : 10 ∉ line.bytes := by
  intro hmem
  rcases List.mem_append.mp hmem with hmem | hmem
  · exact (line.text_plain 10 hmem).2.1 rfl
  · split at hmem
    · exact absurd hmem (by decide)
    · cases hmem

theorem bytes_ne_nil {line : TableLine} (h : 2 ≤ line.cells.length) : line.bytes ≠ [] := by
  obtain ⟨cells, carriageReturn⟩ := line
  match cells, h with
  | cell :: cell' :: cells, _ =>
    unfold bytes text
    rw [List.map_cons, List.map_cons, List.intercalate_cons_cons]
    simp

end TableLine

/-- A table has each of the three columns once, and the same columns in every line. -/
structure StreamTable where
  header : TableLine
  rows : List TableLine
  rows_ne_nil : rows ≠ []
  named : ∀ name ∈ columnNames, (header.cells.map Cell.text).count name = 1
  rectangular : ∀ row ∈ rows, row.cells.length = header.cells.length

namespace StreamTable

def lines (t : StreamTable) : List TableLine := t.header :: t.rows

/-- The text of the table, with or without its last line break. -/
def text (t : StreamTable) (closed : Bool) : List UInt8 :=
  if closed then (t.lines.map TableLine.bytes).flatMap (fun line => line ++ [10])
  else [10].intercalate (t.lines.map TableLine.bytes)

def file (t : StreamTable) (mark closed : Bool) : List UInt8 :=
  (if mark then LineReader.byteOrderMark else []) ++ t.text closed

/-- The text in the column of a name. -/
def cellText (t : StreamTable) (row : TableLine) (name : List UInt8) : List UInt8 :=
  (row.cells.map Cell.text).getD ((t.header.cells.map Cell.text).idxOf name) []

def configRow (t : StreamTable) (row : TableLine) : StreamConfigRow where
  exchange := t.cellText row (WebSocket.ascii "exchange")
  symbol := t.cellText row (WebSocket.ascii "symbol")
  stream := (t.cellText row (WebSocket.ascii "stream")).map toLower

theorem three_le_header (t : StreamTable) : 3 ≤ t.header.cells.length := by
  have hsubset : columnNames ⊆ t.header.cells.map Cell.text := by
    intro name hname
    refine List.count_pos_iff.mp ?_
    rw [t.named name hname]
    exact Nat.one_pos
  have hle := (List.Nodup.subperm columnNames_nodup hsubset).length_le
  rw [List.length_map] at hle
  exact hle

theorem three_le_cells (t : StreamTable) : ∀ line ∈ t.lines, 3 ≤ line.cells.length := by
  intro line hline
  rcases List.mem_cons.mp hline with rfl | hrow
  · exact t.three_le_header
  · rw [t.rectangular line hrow]
    exact t.three_le_header

theorem segments_text (t : StreamTable) (closed : Bool) :
    segments 10 (t.text closed) = t.lines.map TableLine.bytes := by
  have hplain : ∀ bytes ∈ t.lines.map TableLine.bytes, 10 ∉ bytes := by
    intro bytes hbytes
    obtain ⟨line, -, rfl⟩ := List.mem_map.mp hbytes
    exact line.break_notMem_bytes
  cases closed with
  | true => exact segments_flatMap hplain
  | false =>
    refine segments_intercalate hplain ?_
    intro bytes hbytes
    obtain ⟨line, hline, rfl⟩ := List.mem_map.mp hbytes
    have := t.three_le_cells line hline
    exact TableLine.bytes_ne_nil (by omega)

theorem body_file (t : StreamTable) {mark closed : Bool}
    (hmark : mark = false → ¬ LineReader.byteOrderMark <+: t.text closed) :
    LineReader.body (t.file mark closed) = t.text closed := by
  unfold LineReader.body file
  cases mark with
  | true =>
    rw [if_pos rfl, if_pos (List.prefix_append _ _)]
    rfl
  | false =>
    rw [if_neg Bool.false_ne_true, List.nil_append, if_neg (hmark rfl)]

theorem ne_nil_of_mem (t : StreamTable) {line : TableLine} (hline : line ∈ t.lines) :
    line.cells ≠ [] := by
  have := t.three_le_cells line hline
  exact List.ne_nil_of_length_pos (by omega)

theorem field_text (t : StreamTable) {row : TableLine} (hrow : row ∈ t.rows) (name : List UInt8) :
    field t.header.text row.text name = t.cellText row name := by
  have hheader := t.ne_nil_of_mem List.mem_cons_self
  have hcells := t.ne_nil_of_mem (List.mem_cons_of_mem _ hrow)
  unfold field cellText
  rw [TableLine.headerNames_text hheader, TableLine.columns_text hcells]
  have htrim : row.cells.map Cell.text = (row.cells.map Cell.bytes).map trim := by
    rw [List.map_map]
    exact List.map_congr_left (fun cell _ => cell.trim_bytes.symm)
  rw [htrim]
  exact (List.getD_map _ [] trim).symm

theorem accepted (t : StreamTable) :
    Accepted (t.lines.map TableLine.text) .noMoreLines (t.rows.map t.configRow) := by
  have hheader := t.ne_nil_of_mem List.mem_cons_self
  refine ⟨rfl, t.header.text, t.rows.map TableLine.text, rfl, ?_, ?_, ?_, ?_⟩
  · simpa using t.rows_ne_nil
  · intro name hname
    rw [TableLine.headerNames_text hheader]
    exact t.named name hname
  · intro line hline
    obtain ⟨row, hrow, rfl⟩ := List.mem_map.mp hline
    rw [Fits, TableLine.columns_text hheader,
      TableLine.columns_text (t.ne_nil_of_mem (List.mem_cons_of_mem _ hrow)), List.length_map,
      List.length_map]
    exact t.rectangular row hrow
  · rw [List.map_map]
    refine List.map_congr_left (fun row hrow => ?_)
    simp only [Function.comp_apply, rowOf, configRow, t.field_text hrow]

/-! ### Reading a table back -/

section File

open LineReading

variable {blockLen : ℕ}

/-- A table is read back from its file, in whatever order the threads of the line reader take
their steps, if its lines fit into a block. -/
theorem loadCSV_file (hblock : 2 ≤ blockLen) (memory : Memory) (t : StreamTable)
    (mark closed : Bool) (hmark : mark = false → ¬ LineReader.byteOrderMark <+: t.text closed)
    (hshort : ∀ line ∈ t.lines, line.bytes.length < blockLen)
    (rounds : List (List ReaderThread)) (hfair : ∀ turn ∈ rounds, round.Sublist turn)
    (hmany : t.lines.length < rounds.length) :
    let s := rounds.flatten.foldl (step blockLen) (start blockLen memory (t.file mark closed))
    ∃ ended, s.ended = some ended ∧ loadCSV s.lines ended = .ok (t.rows.map t.configRow) := by
  intro s
  have hsegments : segments 10 (LineReader.body (t.file mark closed)) =
      t.lines.map TableLine.bytes := by
    rw [t.body_file hmark, t.segments_text]
  obtain ⟨done, ended, h, hended⟩ := inv_ended_of_rounds hblock memory (t.file mark closed) hfair
    (by rw [hsegments, List.length_map]; exact hmany)
  have houtcome := h.outcome_of_ended hended
  have htexts : (t.lines.map TableLine.bytes).map LineReader.cLine = t.lines.map TableLine.text := by
    rw [List.map_map]
    exact List.map_congr_left (fun line _ => line.cLine_bytes)
  rw [hsegments, outcome_lines_of_short, htexts] at houtcome
  · refine ⟨ended, hended, ?_⟩
    rw [← (Prod.mk.inj houtcome).1, ← (Prod.mk.inj houtcome).2]
    exact t.accepted.loadCSV_eq
  · intro bytes hbytes
    obtain ⟨line, hline, rfl⟩ := List.mem_map.mp hbytes
    exact hshort line hline

end File

/-- The columns of the file that the program comes with, and one of its rows. -/
def shippedTable : StreamTable where
  header := ⟨[Cell.bare (WebSocket.ascii "exchange") (by decide),
    Cell.bare (WebSocket.ascii "symbol") (by decide),
    Cell.bare (WebSocket.ascii "exchange_base_connection") (by decide),
    Cell.bare (WebSocket.ascii "stream") (by decide)], false⟩
  rows := [⟨[Cell.bare (WebSocket.ascii "BINANCE") (by decide),
    Cell.bare (WebSocket.ascii "BTCUSDT") (by decide), Cell.bare [] (by decide),
    Cell.bare (WebSocket.ascii "btcusdt@depth") (by decide)], false⟩]
  rows_ne_nil := by decide
  named := by decide
  rectangular := by decide

theorem loadCSV_file_shippedTable :
    ∃ ended, ((List.replicate 3 LineReading.round).flatten.foldl (LineReading.step 1048576)
        (.start 1048576 (fun _ => 0) (shippedTable.file false false))).ended = some ended ∧
      loadCSV ((List.replicate 3 LineReading.round).flatten.foldl (LineReading.step 1048576)
        (.start 1048576 (fun _ => 0) (shippedTable.file false false))).lines ended =
          .ok [⟨⟨WebSocket.ascii "BINANCE", WebSocket.ascii "BTCUSDT"⟩,
            WebSocket.ascii "btcusdt@depth"⟩] := by
  obtain ⟨ended, hended, hload⟩ := loadCSV_file (show 2 ≤ 1048576 by decide) (fun _ => 0)
    shippedTable false false (fun _ => by decide) (by decide) (List.replicate 3 LineReading.round)
    (by decide) (by decide)
  refine ⟨ended, hended, hload.trans (congrArg Except.ok ?_)⟩
  decide

end StreamTable

end HftSystem
