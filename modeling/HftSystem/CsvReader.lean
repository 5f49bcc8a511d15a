import HftSystem.LineReading
import Mathlib.Data.List.DropRight
import Mathlib.Data.List.Nodup

/-!
The CSV reader over the line reader: a header line that says in which order the columns
of the caller stand in the file, and rows that are cut into columns in that order. It is
instantiated with blanks as the bytes to trim, with the comma as the separator, without
quotes and without comments.
-/
namespace HftSystem

open Segments

inductive CsvError where
  | lineLengthLimitExceeded (fileLine : Int32)
  | headerMissing
  | extraColumnInHeader (columnName : List UInt8)
  | missingColumnInHeader (columnName : List UInt8)
  | duplicatedColumnInHeader (columnName : List UInt8)
  | tooFewColumns (fileLine : Int32)
  | tooManyColumns (fileLine : Int32)
deriving DecidableEq

/-- The two bits of `ignore_column`. -/
structure IgnoreColumn where
  extraColumn : Bool := false
  missingColumn : Bool := false

/-- What `parse_header_line` has found so far. -/
structure HeaderSearch where
  found : ℕ → Bool := fun _ => false
  colOrder : List (Option ℕ) := []

/-- The first two fields are what the calls of `next_line` are still going to return. A column
that is ignored stands as none in `colOrder`, where the source has -1. -/
structure CSVReader where
  lines : List (List UInt8)
  ended : LinesEnd
  fileLine : UInt32 := 0
  row : ℕ → Option (List UInt8) := fun _ => none
  colOrder : List (Option ℕ) := []

namespace CSVReader

def isTrimChar (c : UInt8) : Bool := c = 32 || c = 9

def trim (column : List UInt8) : List UInt8 :=
  (column.dropWhile isTrimChar).rdropWhile isTrimChar

def chopNextColumn (line : List UInt8) : List UInt8 × Option (List UInt8) :=
  (line.takeWhile (fun c => c ≠ 44),
    match line.dropWhile (fun c => c ≠ 44) with
    | [] => none
    | _ :: rest => some rest)

/-- `set_column_name` of an error keeps 63 bytes. -/
def errorName (name : List UInt8) : List UInt8 := name.take 63

/-- One column of the header. -/
def headerColumn (names : List (List UInt8)) (ignore : IgnoreColumn) (h : HeaderSearch)
    (column : List UInt8) : Except CsvError HeaderSearch :=
  match names.idxOf? column with
  | some i =>
    if h.found i then .error (.duplicatedColumnInHeader (errorName column))
    else .ok { found := Function.update h.found i true, colOrder := h.colOrder ++ [some i] }
  | none =>
    if ignore.extraColumn then .ok { h with colOrder := h.colOrder ++ [none] }
    else .error (.extraColumnInHeader (errorName column))

theorem chopNextColumn_lt {line rest : List UInt8} (h : (chopNextColumn line).2 = some rest) :
    rest.length < line.length := by
  unfold chopNextColumn at h
  dsimp only at h
  have hle := (List.dropWhile_suffix (fun c : UInt8 => decide (c ≠ 44)) (l := line)).length_le
  cases hdrop : line.dropWhile (fun c => c ≠ 44) with
  | nil =>
    rw [hdrop] at h
    cases h
  | cons c rest' =>
    rw [hdrop] at h hle
    cases h
    exact Nat.lt_of_succ_le hle

/-- The first loop of `parse_header_line`. -/
def headerColumns (names : List (List UInt8)) (ignore : IgnoreColumn) (h : HeaderSearch)
    (line : List UInt8) : Except CsvError HeaderSearch :=
  match headerColumn names ignore h (trim (chopNextColumn line).1) with
  | .error e => .error e
  | .ok h =>
    match _hrest : (chopNextColumn line).2 with
    | none => .ok h
    | some rest => headerColumns names ignore h rest
termination_by line.length
decreasing_by exact chopNextColumn_lt _hrest

def parseHeaderLine (names : List (List UInt8)) (ignore : IgnoreColumn) (line : List UInt8) :
    Except CsvError (List (Option ℕ)) :=
  match headerColumns names ignore {} line with
  | .error e => .error e
  | .ok h =>
    if ignore.missingColumn then .ok h.colOrder
    else
      match (List.range names.length).find? (fun i => !h.found i) with
      | some i => .error (.missingColumnInHeader (errorName (names.getD i [])))
      | none => .ok h.colOrder

/-- `parse_line`, whose errors get the number of the line from `read_row`. -/
def parseLine (fileLine : Int32) :
    (line : Option (List UInt8)) → (row : ℕ → Option (List UInt8)) →
      (colOrder : List (Option ℕ)) → Except CsvError (ℕ → Option (List UInt8))
  | none, row, [] => .ok row
  | some _, _, [] => .error (.tooManyColumns fileLine)
  | none, _, _ :: _ => .error (.tooFewColumns fileLine)
  | some line, row, i :: colOrder =>
    let (column, rest) := chopNextColumn line
    match i with
    | none => parseLine fileLine rest row colOrder
    | some i => parseLine fileLine rest (Function.update row i (some (trim column))) colOrder

def nextLine (r : CSVReader) : Except CsvError (Option (List UInt8 × CSVReader)) :=
  match r.lines, r.ended with
  | line :: lines, _ => .ok (some (line, { r with lines, fileLine := r.fileLine + 1 }))
  | [], .noMoreLines => .ok none
  | [], .lineLengthLimitExceeded fileLine => .error (.lineLengthLimitExceeded fileLine)

def readHeader (ignore : IgnoreColumn) (names : List (List UInt8)) (r : CSVReader) :
    Except CsvError CSVReader :=
  match r.nextLine with
  | .error e => .error e
  | .ok none => .error .headerMissing
  | .ok (some (line, r)) =>
    match parseHeaderLine names ignore line with
    | .error e => .error e
    | .ok colOrder => .ok { r with colOrder }

/-- The row is none if there is no line any more. -/
def readRow (r : CSVReader) : Except CsvError (Option CSVReader) :=
  match r.nextLine with
  | .error e => .error e
  | .ok none => .ok none
  | .ok (some (line, r)) =>
    match parseLine r.fileLine.toInt32 (some line) r.row r.colOrder with
    | .error e => .error e
    | .ok row => .ok (some { r with row })

/-- `parse_helper` for strings: a column that is not in the file keeps its value. -/
def column (r : CSVReader) (i : ℕ) (value : List UInt8) : List UInt8 := (r.row i).getD value

theorem nextLine_lt {r r' : CSVReader} {line : List UInt8}
    (h : r.nextLine = .ok (some (line, r'))) : r'.lines.length < r.lines.length := by
  unfold nextLine at h
  split at h
  · rename_i hlines
    cases h
    rw [hlines]
    exact Nat.lt_succ_self _
  · cases h
  · cases h

theorem readRow_lt {r r' : CSVReader} (h : r.readRow = .ok (some r')) :
    r'.lines.length < r.lines.length := by
  unfold readRow at h
  split at h
  · cases h
  · cases h
  · rename_i line next hnext
    split at h
    · cases h
    · cases h
      change next.lines.length < r.lines.length
      exact nextLine_lt hnext

/-! ### Columns -/

def columns (line : List UInt8) : List (List UInt8) := line.splitOn 44

/-- The columns that are left if the line may be used up. -/
def columnsLeft : Option (List UInt8) → List (List UInt8)
  | none => []
  | some line => columns line

theorem chopNextColumn_of_mem {line : List UInt8} (h : 44 ∈ line) :
    chopNextColumn line = (first 44 line, some (afterFirst 44 line)) := by
  have hsplit := first_append_afterFirst h
  have hdrop : line.dropWhile (fun c => c ≠ 44) = 44 :: afterFirst 44 line := by
    have htake := List.takeWhile_append_dropWhile (p := fun c => decide (c ≠ (44 : UInt8)))
      (l := line)
    exact List.append_cancel_left (htake.trans hsplit)
  rw [chopNextColumn, hdrop]
  rfl

theorem chopNextColumn_of_notMem {line : List UInt8} (h : 44 ∉ line) :
    chopNextColumn line = (line, none) := by
  have hdrop : line.dropWhile (fun c => c ≠ 44) = [] := by
    refine List.dropWhile_eq_nil_iff.mpr (fun c hc => ?_)
    exact decide_eq_true (fun heq => h (heq ▸ hc))
  rw [chopNextColumn, hdrop]
  exact congrArg (fun column => (column, none)) (first_of_not_mem h)

/-- Chopping goes through the columns of the line. -/
theorem columns_eq_chop (line : List UInt8) :
    columns line = (chopNextColumn line).1 :: columnsLeft (chopNextColumn line).2 := by
  by_cases h : 44 ∈ line
  · rw [chopNextColumn_of_mem h]
    have hsplit := congrArg columns (first_append_afterFirst h)
    exact hsplit.trans (List.splitOn_append_cons_self_of_not_mem (not_mem_first line) _)
  · rw [chopNextColumn_of_notMem h]
    exact List.splitOn_eq_singleton h

/-! ### The header -/

/-- The names that stand in a header line. -/
def headerNames (line : List UInt8) : List (List UInt8) := (columns line).map trim

variable {names : List (List UInt8)} {ignore : IgnoreColumn}

theorem headerColumns_eq (h : HeaderSearch) (line : List UInt8) :
    headerColumns names ignore h line = (headerNames line).foldlM (headerColumn names ignore) h := by
  fun_induction headerColumns names ignore h line with
  | case1 h line e herror =>
    rw [headerNames, columns_eq_chop, List.map_cons, List.foldlM_cons, herror]
    rfl
  | case2 h line h' hok hrest =>
    rw [headerNames, columns_eq_chop, List.map_cons, List.foldlM_cons, hok, hrest]
    rfl
  | case3 h line h' hok rest hrest ih =>
    rw [headerNames, columns_eq_chop, List.map_cons, List.foldlM_cons, hok, hrest, ih]
    rfl

/-- What is known after some columns of the header. -/
structure Searched (names columns : List (List UInt8)) (h : HeaderSearch) : Prop where
  colOrder_eq : h.colOrder = columns.map names.idxOf?
  found_iff : ∀ i, h.found i = true ↔ some i ∈ h.colOrder
  once : ∀ i, h.colOrder.count (some i) ≤ 1

theorem searched_start (names : List (List UInt8)) : Searched names [] {} where
  colOrder_eq := rfl
  found_iff i := by simp
  once i := by simp

theorem Searched.step {columns : List (List UInt8)} {h : HeaderSearch}
    (hs : Searched names columns h) (ignore : IgnoreColumn) (column : List UInt8) :
    (∃ i, names.idxOf? column = some i ∧ some i ∈ h.colOrder ∧
        headerColumn names ignore h column =
          .error (.duplicatedColumnInHeader (errorName column))) ∨
      (names.idxOf? column = none ∧ ignore.extraColumn = false ∧
        headerColumn names ignore h column = .error (.extraColumnInHeader (errorName column))) ∨
      ∃ h', Searched names (columns ++ [column]) h' ∧
        (∀ i, names.idxOf? column = some i → some i ∉ h.colOrder) ∧
        headerColumn names ignore h column = .ok h' := by
  unfold headerColumn
  cases hindex : names.idxOf? column with
  | none =>
    dsimp only
    cases hextra : ignore.extraColumn with
    | false => exact .inr (.inl ⟨rfl, rfl, rfl⟩)
    | true =>
      refine .inr (.inr ⟨_, ⟨?_, ?_, ?_⟩, nofun, rfl⟩)
      · rw [List.map_append, List.map_singleton, hindex, hs.colOrder_eq]
      · intro i
        rw [hs.found_iff i]
        simp
      · intro i
        simpa using hs.once i
  | some i =>
    dsimp only
    cases hfound : h.found i with
    | true => exact .inl ⟨i, rfl, (hs.found_iff i).mp hfound, rfl⟩
    | false =>
      have hnew : some i ∉ h.colOrder := by
        intro hmem
        rw [(hs.found_iff i).mpr hmem] at hfound
        cases hfound
      refine .inr (.inr ⟨_, ⟨?_, ?_, ?_⟩, ?_, rfl⟩)
      · rw [List.map_append, List.map_singleton, hindex, hs.colOrder_eq]
      · intro j
        by_cases hj : j = i
        · subst hj
          simp
        · dsimp only
          rw [Function.update_of_ne hj, hs.found_iff j]
          simp [hj]
      · intro j
        dsimp only
        by_cases hj : j = i
        · subst hj
          rw [List.count_append, List.count_eq_zero.mpr hnew]
          simp
        · have hzero : [some i].count (some j) = 0 := List.count_eq_zero.mpr (by simpa using hj)
          rw [List.count_append, hzero]
          exact hs.once j
      · rintro j ⟨⟩
        exact hnew

/-- The first column of a header that cannot be taken: it repeats a name that is asked for, or it
is not asked for while such columns are not ignored. -/
def Refuses (names : List (List UInt8)) (ignore : IgnoreColumn) (before : List (List UInt8))
    (column : List UInt8) : CsvError → Prop
  | .duplicatedColumnInHeader name => name = errorName column ∧ column ∈ names ∧ column ∈ before
  | .extraColumnInHeader name =>
    name = errorName column ∧ column ∉ names ∧ ignore.extraColumn = false
  | _ => False

theorem getElem?_of_idxOf? {column : List UInt8} {i : ℕ} (h : names.idxOf? column = some i) :
    names[i]? = some column := by
  obtain ⟨hi, hcolumn, -⟩ := List.idxOf?_eq_some_iff.mp h
  rw [List.getElem?_eq_getElem hi, hcolumn]

theorem mem_of_mem_map_idxOf? {before : List (List UInt8)} {column : List UInt8} {i : ℕ}
    (h : names.idxOf? column = some i) (hmem : some i ∈ before.map names.idxOf?) :
    column ∈ before := by
  obtain ⟨column', hcolumn', hindex⟩ := List.mem_map.mp hmem
  have heq := (getElem?_of_idxOf? h).symm.trans (getElem?_of_idxOf? hindex)
  cases heq
  exact hcolumn'

theorem foldlM_headerColumn (names : List (List UInt8)) (ignore : IgnoreColumn)
    (columns : List (List UInt8)) :
    match columns.foldlM (headerColumn names ignore) {} with
    | .ok h => Searched names columns h
    | .error e => ∃ before column after, columns = before ++ column :: after ∧
        (∃ h, Searched names before h) ∧ Refuses names ignore before column e := by
  induction columns using List.reverseRecOn with
  | nil => exact searched_start names
  | append_singleton columns column ih =>
    rw [List.foldlM_append]
    cases hfold : columns.foldlM (headerColumn names ignore) {} with
    | error e =>
      rw [hfold] at ih
      obtain ⟨before, refused, after, rfl, hbefore, hrefuses⟩ := ih
      exact ⟨before, refused, after ++ [column], by simp, hbefore, hrefuses⟩
    | ok h =>
      rw [hfold] at ih
      change match [column].foldlM (headerColumn names ignore) h with
        | .ok h => _
        | .error e => _
      rw [List.foldlM_cons]
      rcases ih.step ignore column with
        ⟨i, hindex, hmem, hstep⟩ | ⟨hnone, hextra, hstep⟩ | ⟨h', hs', -, hstep⟩
      · rw [hstep]
        refine ⟨columns, column, [], rfl, ⟨h, ih⟩, rfl, ?_, ?_⟩
        · exact List.mem_of_getElem? (getElem?_of_idxOf? hindex)
        · exact mem_of_mem_map_idxOf? hindex (ih.colOrder_eq ▸ hmem)
      · rw [hstep]
        exact ⟨columns, column, [], rfl, ⟨h, ih⟩, rfl, List.idxOf?_eq_none_iff.mp hnone, hextra⟩
      · rw [hstep]
        exact hs'

theorem idxOf?_eq_some_iff (hnames : names.Nodup) (column : List UInt8) (i : ℕ) :
    names.idxOf? column = some i ↔ names[i]? = some column := by
  refine ⟨getElem?_of_idxOf?, fun h => ?_⟩
  obtain ⟨hi, rfl⟩ := List.getElem?_eq_some_iff.mp h
  refine List.idxOf?_eq_some_iff.mpr ⟨hi, rfl, fun j hj heq => ?_⟩
  have := (hnames.getElem_inj_iff).mp heq
  omega

/-- The columns of one name, counted by its number. -/
theorem count_map_idxOf? (hnames : names.Nodup) (columns : List (List UInt8)) {i : ℕ}
    {name : List UInt8} (hname : names[i]? = some name) :
    (columns.map names.idxOf?).count (some i) = columns.count name := by
  rw [List.count, List.countP_map, List.count]
  refine List.countP_congr (fun column _ => ?_)
  have hiff := idxOf?_eq_some_iff hnames column i
  rw [hname] at hiff
  simp only [Function.comp_apply, beq_iff_eq, hiff, Option.some.injEq]
  exact eq_comm

theorem Searched.count_le (hnames : names.Nodup) {columns : List (List UInt8)} {h : HeaderSearch}
    (hs : Searched names columns h) : ∀ name ∈ names, columns.count name ≤ 1 := by
  intro name hname
  obtain ⟨i, hi⟩ := List.getElem?_of_mem hname
  rw [← count_map_idxOf? hnames columns hi, ← hs.colOrder_eq]
  exact hs.once i

theorem Searched.found_eq (hnames : names.Nodup) {columns : List (List UInt8)} {h : HeaderSearch}
    (hs : Searched names columns h) {i : ℕ} {name : List UInt8} (hname : names[i]? = some name) :
    h.found i = true ↔ name ∈ columns := by
  rw [hs.found_iff, hs.colOrder_eq, ← List.count_pos_iff, count_map_idxOf? hnames columns hname,
    List.count_pos_iff]

/-- A header either has every name that is asked for once, or it has one of them a second time, or
lacks one. The error names the first column that repeats one, or the first name that is missing. -/
theorem parseHeaderLine_cases (hnames : names.Nodup) (line : List UInt8) :
    ((∀ name ∈ names, (headerNames line).count name = 1) ∧
        parseHeaderLine names ⟨true, false⟩ line = .ok ((headerNames line).map names.idxOf?)) ∨
      (∃ before column after, headerNames line = before ++ column :: after ∧ column ∈ names ∧
        column ∈ before ∧ (∀ name ∈ names, before.count name ≤ 1) ∧
        parseHeaderLine names ⟨true, false⟩ line =
          .error (.duplicatedColumnInHeader (errorName column))) ∨
      ∃ earlier name later, names = earlier ++ name :: later ∧
        (∀ name ∈ names, (headerNames line).count name ≤ 1) ∧
        (∀ name ∈ earlier, name ∈ headerNames line) ∧ name ∉ headerNames line ∧
        parseHeaderLine names ⟨true, false⟩ line =
          .error (.missingColumnInHeader (errorName name)) := by
  have hfold := foldlM_headerColumn names ⟨true, false⟩ (headerNames line)
  unfold parseHeaderLine
  rw [headerColumns_eq]
  cases hsearch : (headerNames line).foldlM (headerColumn names ⟨true, false⟩) {} with
  | error e =>
    rw [hsearch] at hfold
    obtain ⟨before, column, after, hline, ⟨h, hs⟩, hrefuses⟩ := hfold
    cases e with
    | duplicatedColumnInHeader name =>
      obtain ⟨rfl, hcolumn, hbefore⟩ := hrefuses
      exact .inr (.inl ⟨before, column, after, hline, hcolumn, hbefore, hs.count_le hnames, rfl⟩)
    | extraColumnInHeader name => cases hrefuses.2.2
    | lineLengthLimitExceeded fileLine => exact hrefuses.elim
    | headerMissing => exact hrefuses.elim
    | missingColumnInHeader name => exact hrefuses.elim
    | tooFewColumns fileLine => exact hrefuses.elim
    | tooManyColumns fileLine => exact hrefuses.elim
  | ok h =>
    rw [hsearch] at hfold
    have hs : Searched names (headerNames line) h := hfold
    have hle := hs.count_le hnames
    dsimp only
    rw [if_neg (by decide)]
    cases hfind : (List.range names.length).find? (fun i => !h.found i) with
    | none =>
      refine .inl ⟨fun name hname => ?_, ?_⟩
      · obtain ⟨i, hi⟩ := List.getElem?_of_mem hname
        have hlt := (List.getElem?_eq_some_iff.mp hi).1
        have hfound := List.find?_eq_none.mp hfind i (List.mem_range.mpr hlt)
        have hpos := List.count_pos_iff.mpr ((hs.found_eq hnames hi).mp (by simpa using hfound))
        have := hle name hname
        omega
      · rw [hs.colOrder_eq]
    | some i =>
      obtain ⟨hmissing, hi, hearlier⟩ := List.find?_range_eq_some.mp hfind
      have hi := List.mem_range.mp hi
      have hname := List.getElem?_eq_getElem hi
      refine .inr (.inr ⟨names.take i, names[i], names.drop (i + 1), ?_, hle, ?_, ?_, ?_⟩)
      · rw [List.cons_getElem_drop_succ, List.take_append_drop]
      · intro name htake
        obtain ⟨j, hj, rfl⟩ := List.mem_take_iff_getElem.mp htake
        have hlt : j < i := by omega
        refine (hs.found_eq hnames (List.getElem?_eq_getElem (by omega))).mp ?_
        simpa using hearlier j hlt
      · intro hmem
        rw [(hs.found_eq hnames hname).mpr hmem] at hmissing
        cases hmissing
      · dsimp only
        rw [List.getD_eq_getElem _ _ hi]

/-! ### Rows -/

/-- The row after the columns have been put in their places. -/
def assign (row : ℕ → Option (List UInt8)) :
    List (Option ℕ) → List (List UInt8) → (ℕ → Option (List UInt8))
  | none :: colOrder, _ :: columns => assign row colOrder columns
  | some i :: colOrder, column :: columns =>
    assign (Function.update row i (some (trim column))) colOrder columns
  | _, _ => row

theorem assign_of_notMem {colOrder : List (Option ℕ)} {i : ℕ} (h : some i ∉ colOrder)
    (row : ℕ → Option (List UInt8)) (columns : List (List UInt8)) :
    assign row colOrder columns i = row i := by
  induction colOrder generalizing row columns with
  | nil => rfl
  | cons j colOrder ih =>
    obtain ⟨hj, hrest⟩ := not_or.mp (fun hmem => h (List.mem_cons.mpr hmem))
    cases columns with
    | nil =>
      cases j
      · rfl
      · rfl
    | cons column columns =>
      cases j with
      | none => exact ih hrest row columns
      | some j =>
        rw [assign, ih hrest]
        exact Function.update_of_ne (fun heq => hj (congrArg some heq)) _ _

theorem assign_of_count {colOrder : List (Option ℕ)} {i : ℕ} (h : colOrder.count (some i) = 1)
    (row : ℕ → Option (List UInt8)) {columns : List (List UInt8)}
    (hlength : columns.length = colOrder.length) :
    assign row colOrder columns i =
      some (trim (columns.getD (colOrder.idxOf (some i)) [])) := by
  induction colOrder generalizing row columns with
  | nil => cases h
  | cons j colOrder ih =>
    cases columns with
    | nil => cases hlength
    | cons column columns =>
      have hrest : columns.length = colOrder.length := Nat.succ.inj hlength
      by_cases hj : j = some i
      · subst hj
        have hnone : some i ∉ colOrder := by
          rw [List.count_cons_self] at h
          exact List.count_eq_zero.mp (Nat.succ.inj h)
        rw [assign, assign_of_notMem hnone, Function.update_self, List.idxOf_cons_self]
        rfl
      · rw [List.count_cons_of_ne hj] at h
        rw [List.idxOf_cons_ne _ hj]
        cases j with
        | none => exact ih h row hrest
        | some j => exact ih h _ hrest

/-- A line has to have as many columns as the header. -/
theorem parseLine_cases (fileLine : Int32) (line : Option (List UInt8))
    (row : ℕ → Option (List UInt8)) (colOrder : List (Option ℕ)) :
    ((columnsLeft line).length < colOrder.length ∧
        parseLine fileLine line row colOrder = .error (.tooFewColumns fileLine)) ∨
      (colOrder.length < (columnsLeft line).length ∧
        parseLine fileLine line row colOrder = .error (.tooManyColumns fileLine)) ∨
      (columnsLeft line).length = colOrder.length ∧
        parseLine fileLine line row colOrder = .ok (assign row colOrder (columnsLeft line)) := by
  induction colOrder generalizing line row with
  | nil =>
    cases line with
    | none => exact .inr (.inr ⟨rfl, rfl⟩)
    | some line =>
      refine .inr (.inl ⟨?_, rfl⟩)
      rw [columnsLeft, columns_eq_chop]
      exact Nat.succ_pos _
  | cons i colOrder ih =>
    cases line with
    | none => exact .inl ⟨Nat.succ_pos _, by rw [parseLine]⟩
    | some line =>
      rw [columnsLeft, columns_eq_chop, List.length_cons, List.length_cons]
      cases i with
      | none =>
        rw [parseLine, assign]
        rcases ih (chopNextColumn line).2 row with ⟨hlt, h⟩ | ⟨hlt, h⟩ | ⟨heq, h⟩
        · exact .inl ⟨Nat.succ_lt_succ hlt, h⟩
        · exact .inr (.inl ⟨Nat.succ_lt_succ hlt, h⟩)
        · exact .inr (.inr ⟨congrArg Nat.succ heq, h⟩)
      | some i =>
        rw [parseLine, assign]
        rcases ih (chopNextColumn line).2 (Function.update row i (some (trim (chopNextColumn line).1)))
          with ⟨hlt, h⟩ | ⟨hlt, h⟩ | ⟨heq, h⟩
        · exact .inl ⟨Nat.succ_lt_succ hlt, h⟩
        · exact .inr (.inl ⟨Nat.succ_lt_succ hlt, h⟩)
        · exact .inr (.inr ⟨congrArg Nat.succ heq, h⟩)

/-- The text under a name in a line, given the line of the header. -/
def field (header line name : List UInt8) : List UInt8 :=
  trim ((columns line).getD ((headerNames header).idxOf name) [])

theorem idxOf_map_idxOf? (hnames : names.Nodup) (columns : List (List UInt8)) {i : ℕ}
    {name : List UInt8} (hname : names[i]? = some name) :
    (columns.map names.idxOf?).idxOf (some i) = columns.idxOf name := by
  induction columns with
  | nil => rfl
  | cons column columns ih =>
    have hiff := idxOf?_eq_some_iff hnames column i
    by_cases hcolumn : column = name
    · rw [List.map_cons, hcolumn, (idxOf?_eq_some_iff hnames name i).mpr hname, List.idxOf_cons_self,
        List.idxOf_cons_self]
    · have hne : names.idxOf? column ≠ some i := by
        intro hindex
        exact hcolumn (Option.some.inj ((hiff.mp hindex).symm.trans hname))
      rw [List.map_cons, List.idxOf_cons_ne _ hne, List.idxOf_cons_ne _ hcolumn, ih]

/-- A reader that has taken the header. -/
structure HasHeader (names : List (List UInt8)) (header : List UInt8) (r : CSVReader) : Prop where
  colOrder_eq : r.colOrder = (headerNames header).map names.idxOf?
  count_eq : ∀ name ∈ names, (headerNames header).count name = 1

theorem HasHeader.column_assign {header line : List UInt8} {r : CSVReader}
    {row : ℕ → Option (List UInt8)} (h : HasHeader names header r) (hnames : names.Nodup)
    (hlength : (columns line).length = (columns header).length)
    (hrow : r.row = assign row r.colOrder (columns line)) {i : ℕ} {name : List UInt8}
    (hname : names[i]? = some name) (value : List UInt8) :
    r.column i value = field header line name := by
  have hcount : r.colOrder.count (some i) = 1 := by
    rw [h.colOrder_eq, count_map_idxOf? hnames _ hname]
    exact h.count_eq name (List.mem_of_getElem? hname)
  have horder : (columns line).length = r.colOrder.length := by
    rw [h.colOrder_eq, List.length_map, headerNames, List.length_map, hlength]
  rw [column, hrow, assign_of_count hcount _ horder, h.colOrder_eq, idxOf_map_idxOf? hnames _ hname]
  rfl

theorem readRow_cases {header line : List UInt8} {lines : List (List UInt8)} {r : CSVReader}
    (h : HasHeader names header r) (hnames : names.Nodup) (hlines : r.lines = line :: lines) :
    ((columns line).length < (columns header).length ∧
        r.readRow = .error (.tooFewColumns (r.fileLine + 1).toInt32)) ∨
      ((columns header).length < (columns line).length ∧
        r.readRow = .error (.tooManyColumns (r.fileLine + 1).toInt32)) ∨
      (columns line).length = (columns header).length ∧ ∃ r', r.readRow = .ok (some r') ∧
        HasHeader names header r' ∧ r'.lines = lines ∧ r'.ended = r.ended ∧
        r'.fileLine = r.fileLine + 1 ∧
        ∀ i name, names[i]? = some name → ∀ value, r'.column i value = field header line name := by
  have hnext : r.nextLine = .ok (some (line, { r with lines, fileLine := r.fileLine + 1 })) := by
    rw [nextLine, hlines]
  have hlength : r.colOrder.length = (columns header).length := by
    rw [h.colOrder_eq, List.length_map, headerNames, List.length_map]
  unfold readRow
  rw [hnext]
  dsimp only
  rcases parseLine_cases (r.fileLine + 1).toInt32 (some line) r.row r.colOrder with
    ⟨hfew, hparse⟩ | ⟨hmany, hparse⟩ | ⟨heq, hparse⟩
  · rw [hparse]
    exact .inl ⟨hlength ▸ hfew, rfl⟩
  · rw [hparse]
    exact .inr (.inl ⟨hlength ▸ hmany, rfl⟩)
  · rw [hparse]
    have hsame : (columns line).length = (columns header).length := heq.trans hlength
    have h' : HasHeader names header { r with
        lines
        fileLine := r.fileLine + 1
        row := assign r.row r.colOrder (columns line) } := ⟨h.colOrder_eq, h.count_eq⟩
    exact .inr (.inr ⟨hsame, _, rfl, h', rfl, rfl, rfl,
      fun i name hname => h'.column_assign hnames hsame rfl hname⟩)

end CSVReader

end HftSystem
