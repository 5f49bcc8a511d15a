import HftSystem.CsvReader
import HftSystem.VenueRegistry
import HftSystem.WebSocketHandshake

/-!
The configuration of the streams, a CSV file with a row for each of them. It is accepted
exactly if its header has each of the three columns once and every line has as many
columns as the header; otherwise the error says where the file goes wrong first.
-/
namespace HftSystem

open CSVReader Segments ByteMemory

/-- A row with its stream, which the registry does not read. -/
structure StreamConfigRow extends StreamRow where
  stream : List UInt8
deriving DecidableEq

/-- The exceptions of the constructor. The second one says that no streams were loaded. -/
inductive StreamConfigError where
  | csv (e : CsvError)
  | noStreamsLoaded
deriving DecidableEq

namespace StreamConfig

def columnNames : List (List UInt8) :=
  [WebSocket.ascii "exchange", WebSocket.ascii "symbol", WebSocket.ascii "stream"]

def toLower (c : UInt8) : UInt8 := if 65 ≤ c ∧ c ≤ 90 then c + 32 else c

/-- The loop of `loadCSV`, with the row that it reads into. -/
def loadRows (r : CSVReader) (current : StreamConfigRow) (rows : List StreamConfigRow) :
    Except CsvError (List StreamConfigRow) :=
  match _hread : r.readRow with
  | .error e => .error e
  | .ok none => .ok rows
  | .ok (some r) =>
    let current : StreamConfigRow :=
      { exchange := r.column 0 current.exchange
        symbol := r.column 1 current.symbol
        stream := (r.column 2 current.stream).map toLower }
    loadRows r current (rows ++ [current])
termination_by r.lines.length
decreasing_by exact readRow_lt _hread

/-- The lines and their end are those of the line reader. -/
def loadCSV (lines : List (List UInt8)) (ended : LinesEnd) :
    Except StreamConfigError (List StreamConfigRow) :=
  match readHeader { extraColumn := true } columnNames { lines, ended } with
  | .error e => .error (.csv e)
  | .ok r =>
    match loadRows r { exchange := [], symbol := [], stream := [] } [] with
    | .error e => .error (.csv e)
    | .ok rows => if rows = [] then .error .noStreamsLoaded else .ok rows

/-! ### The loop -/

theorem loadRows_of_error {r : CSVReader} {e : CsvError} (h : r.readRow = .error e)
    (current : StreamConfigRow) (rows : List StreamConfigRow) :
    loadRows r current rows = .error e := by
  rw [loadRows]
  split
  · rename_i e' h'
    cases h.symm.trans h'
    rfl
  · rename_i h'
    cases h.symm.trans h'
  · rename_i r' h'
    cases h.symm.trans h'

theorem loadRows_of_none {r : CSVReader} (h : r.readRow = .ok none) (current : StreamConfigRow)
    (rows : List StreamConfigRow) : loadRows r current rows = .ok rows := by
  rw [loadRows]
  split
  · rename_i e' h'
    cases h.symm.trans h'
  · rfl
  · rename_i r' h'
    cases h.symm.trans h'

theorem loadRows_of_some {r r' : CSVReader} (h : r.readRow = .ok (some r'))
    (current : StreamConfigRow) (rows : List StreamConfigRow) (row : StreamConfigRow)
    (hexchange : r'.column 0 current.exchange = row.exchange)
    (hsymbol : r'.column 1 current.symbol = row.symbol)
    (hstream : (r'.column 2 current.stream).map toLower = row.stream) :
    loadRows r current rows = loadRows r' row (rows ++ [row]) := by
  rw [loadRows]
  split
  · rename_i e' h'
    cases h.symm.trans h'
  · rename_i h'
    cases h.symm.trans h'
  · rename_i r'' h'
    cases h.symm.trans h'
    rw [hexchange, hsymbol, hstream]

/-! ### Rows -/

theorem columnNames_nodup : columnNames.Nodup := by decide

/-- The row that a line means under a header. -/
def rowOf (header line : List UInt8) : StreamConfigRow where
  exchange := field header line (WebSocket.ascii "exchange")
  symbol := field header line (WebSocket.ascii "symbol")
  stream := (field header line (WebSocket.ascii "stream")).map toLower

/-- The line has as many columns as the header. -/
def Fits (header line : List UInt8) : Prop := (columns line).length = (columns header).length

instance (header line : List UInt8) : Decidable (Fits header line) :=
  inferInstanceAs (Decidable (_ = _))

theorem loadRows_of_fits {header : List UInt8} {r : CSVReader} (h : HasHeader columnNames header r)
    {good rest : List (List UInt8)} (hlines : r.lines = good ++ rest)
    (hgood : ∀ line ∈ good, Fits header line) (current : StreamConfigRow)
    (rows : List StreamConfigRow) :
    ∃ r' current', HasHeader columnNames header r' ∧ r'.lines = rest ∧ r'.ended = r.ended ∧
      r'.fileLine = r.fileLine + UInt32.ofNat good.length ∧
      loadRows r current rows = loadRows r' current' (rows ++ good.map (rowOf header)) := by
  induction good generalizing r current rows with
  | nil =>
    exact ⟨r, current, h, hlines, rfl, (UInt32.add_zero _).symm,
      by rw [List.map_nil, List.append_nil]⟩
  | cons line good ih =>
    obtain ⟨hline, hgood⟩ := List.forall_mem_cons.mp hgood
    rcases readRow_cases h columnNames_nodup hlines with ⟨hlt, -⟩ | ⟨hlt, -⟩ |
      ⟨-, r', hread, h', hlines', hended, hfileLine, hcolumn⟩
    · exact absurd hline hlt.ne
    · exact absurd hline hlt.ne'
    · obtain ⟨r'', current', h'', hlines'', hended', hfileLine', hload⟩ :=
        ih h' hlines' hgood (rowOf header line) (rows ++ [rowOf header line])
      refine ⟨r'', current', h'', hlines'', hended'.trans hended, ?_, ?_⟩
      · rw [hfileLine', hfileLine, List.length_cons, UInt32.ofNat_add, UInt32.add_assoc,
          UInt32.add_comm 1]
        rfl
      · rw [loadRows_of_some hread current rows (rowOf header line) (hcolumn 0 _ rfl _)
          (hcolumn 1 _ rfl _) (congrArg _ (hcolumn 2 _ rfl _)), hload, List.map_cons,
          List.append_assoc, List.singleton_append]

/-- Everything that can come of the lines behind the header. -/
theorem loadRows_cases {header : List UInt8} {r : CSVReader} (h : HasHeader columnNames header r)
    (current : StreamConfigRow) :
    ((∀ line ∈ r.lines, Fits header line) ∧ r.ended = .noMoreLines ∧
        loadRows r current [] = .ok (r.lines.map (rowOf header))) ∨
      (∃ fileLine, (∀ line ∈ r.lines, Fits header line) ∧
        r.ended = .lineLengthLimitExceeded fileLine ∧
        loadRows r current [] = .error (.lineLengthLimitExceeded fileLine)) ∨
      ∃ good line rest, r.lines = good ++ line :: rest ∧ (∀ line ∈ good, Fits header line) ∧
        ((columns line).length < (columns header).length ∧
            loadRows r current [] = .error (.tooFewColumns
              (r.fileLine + UInt32.ofNat good.length + 1).toInt32) ∨
          (columns header).length < (columns line).length ∧
            loadRows r current [] = .error (.tooManyColumns
              (r.fileLine + UInt32.ofNat good.length + 1).toInt32)) := by
  by_cases hall : ∀ line ∈ r.lines, Fits header line
  · obtain ⟨r', current', -, hlines', hended, -, hload⟩ :=
      loadRows_of_fits h (List.append_nil r.lines).symm hall current []
    rw [hload, List.nil_append, ← hended]
    cases hend : r'.ended with
    | noMoreLines =>
      have hread : r'.readRow = .ok none := by
        rw [readRow, nextLine, hlines', hend]
      exact .inl ⟨hall, rfl, loadRows_of_none hread _ _⟩
    | lineLengthLimitExceeded fileLine =>
      have hread : r'.readRow = .error (.lineLengthLimitExceeded fileLine) := by
        rw [readRow, nextLine, hlines', hend]
      exact .inr (.inl ⟨fileLine, hall, rfl, loadRows_of_error hread _ _⟩)
  · -- the first line that does not fit
    obtain ⟨good, line, rest, hlines, hgood, hline⟩ :
        ∃ good line rest, r.lines = good ++ line :: rest ∧ (∀ line ∈ good, Fits header line) ∧
          ¬ Fits header line := by
      have hsome : (r.lines.find? (fun line => ¬ Fits header line)).isSome := by
        rw [List.find?_isSome]
        simpa using hall
      obtain ⟨line, hfind⟩ := Option.isSome_iff_exists.mp hsome
      obtain ⟨hline, good, rest, hlines, hgood⟩ := List.find?_eq_some_iff_append.mp hfind
      exact ⟨good, line, rest, hlines, fun line hmem => by simpa using hgood line hmem,
        of_decide_eq_true hline⟩
    obtain ⟨r', current', h', hlines', -, hfileLine, hload⟩ :=
      loadRows_of_fits h hlines hgood current []
    refine .inr (.inr ⟨good, line, rest, hlines, hgood, ?_⟩)
    rw [hload, ← hfileLine]
    rcases readRow_cases h' columnNames_nodup hlines' with ⟨hlt, hread⟩ | ⟨hlt, hread⟩ | ⟨heq, -⟩
    · exact .inl ⟨hlt, loadRows_of_error hread _ _⟩
    · exact .inr ⟨hlt, loadRows_of_error hread _ _⟩
    · exact absurd heq hline

/-! ### The whole file -/

/-- A header with each of the three columns once. -/
def GoodHeader (header : List UInt8) : Prop :=
  ∀ name ∈ columnNames, (headerNames header).count name = 1

theorem readHeader_of_lines {header : List UInt8} {lines : List (List UInt8)} {ended : LinesEnd} :
    readHeader { extraColumn := true } columnNames { lines := header :: lines, ended } =
      match parseHeaderLine columnNames ⟨true, false⟩ header with
      | .error e => .error e
      | .ok colOrder => .ok { lines, ended, fileLine := 1, colOrder } := rfl

theorem loadCSV_of_goodHeader {header : List UInt8} (hheader : GoodHeader header)
    (lines : List (List UInt8)) (ended : LinesEnd) :
    ∃ r, HasHeader columnNames header r ∧ r.lines = lines ∧ r.ended = ended ∧ r.fileLine = 1 ∧
      loadCSV (header :: lines) ended =
        match loadRows r { exchange := [], symbol := [], stream := [] } [] with
        | .error e => .error (.csv e)
        | .ok rows => if rows = [] then .error .noStreamsLoaded else .ok rows := by
  have hparse : parseHeaderLine columnNames ⟨true, false⟩ header =
      .ok ((headerNames header).map columnNames.idxOf?) := by
    rcases parseHeaderLine_cases columnNames_nodup header with ⟨-, h⟩ |
      ⟨before, column, after, hnames, hcolumn, hbefore, -⟩ |
      ⟨earlier, name, later, hnames, -, -, hmissing, -⟩
    · exact h
    · have hcount := hheader column hcolumn
      have hpos := List.count_pos_iff.mpr hbefore
      rw [hnames, List.count_append, List.count_cons_self] at hcount
      omega
    · have hmem : name ∈ columnNames := by
        rw [hnames]
        simp
      have hcount := hheader name hmem
      rw [List.count_eq_zero.mpr hmissing] at hcount
      cases hcount
  refine ⟨{ lines, ended, fileLine := 1, colOrder := (headerNames header).map columnNames.idxOf? },
    ⟨rfl, hheader⟩, rfl, rfl, rfl, ?_⟩
  rw [loadCSV, readHeader_of_lines, hparse]

/-- Where a file goes wrong first. Lines are counted from one, with the header. -/
inductive Wrong (lines : List (List UInt8)) (ended : LinesEnd) : StreamConfigError → Prop
  | headerMissing (hlines : lines = []) (hended : ended = .noMoreLines) :
      Wrong lines ended (.csv .headerMissing)
  | lineTooLong {fileLine : Int32} (hended : ended = .lineLengthLimitExceeded fileLine)
      (hlines : ∀ header rest, lines = header :: rest →
        GoodHeader header ∧ ∀ line ∈ rest, Fits header line) :
      Wrong lines ended (.csv (.lineLengthLimitExceeded fileLine))
  | duplicatedColumn {header : List UInt8} {rest before after : List (List UInt8)}
      {column : List UInt8} (hlines : lines = header :: rest)
      (hheader : headerNames header = before ++ column :: after) (hcolumn : column ∈ columnNames)
      (hbefore : column ∈ before) (hfirst : ∀ name ∈ columnNames, before.count name ≤ 1) :
      Wrong lines ended (.csv (.duplicatedColumnInHeader (errorName column)))
  | missingColumn {header name : List UInt8} {rest earlier later : List (List UInt8)}
      (hlines : lines = header :: rest) (hnames : columnNames = earlier ++ name :: later)
      (honce : ∀ name ∈ columnNames, (headerNames header).count name ≤ 1)
      (hearlier : ∀ name ∈ earlier, name ∈ headerNames header)
      (hmissing : name ∉ headerNames header) :
      Wrong lines ended (.csv (.missingColumnInHeader (errorName name)))
  | tooFewColumns {header line : List UInt8} {good rest : List (List UInt8)}
      (hlines : lines = header :: (good ++ line :: rest)) (hheader : GoodHeader header)
      (hgood : ∀ line ∈ good, Fits header line)
      (hline : (columns line).length < (columns header).length) :
      Wrong lines ended (.csv (.tooFewColumns (lineNumber (good.length + 2))))
  | tooManyColumns {header line : List UInt8} {good rest : List (List UInt8)}
      (hlines : lines = header :: (good ++ line :: rest)) (hheader : GoodHeader header)
      (hgood : ∀ line ∈ good, Fits header line)
      (hline : (columns header).length < (columns line).length) :
      Wrong lines ended (.csv (.tooManyColumns (lineNumber (good.length + 2))))
  | noStreams {header : List UInt8} (hlines : lines = [header]) (hheader : GoodHeader header)
      (hended : ended = .noMoreLines) : Wrong lines ended .noStreamsLoaded

/-- What a file that is accepted looks like. -/
def Accepted (lines : List (List UInt8)) (ended : LinesEnd) (rows : List StreamConfigRow) : Prop :=
  ended = .noMoreLines ∧ ∃ header rest, lines = header :: rest ∧ rest ≠ [] ∧ GoodHeader header ∧
    (∀ line ∈ rest, Fits header line) ∧ rows = rest.map (rowOf header)

/-- A file with a good header is accepted or goes wrong behind it. -/
theorem loadCSV_cases_of_goodHeader {header : List UInt8} (hheader : GoodHeader header)
    (rest : List (List UInt8)) (ended : LinesEnd) :
    (∃ rows, Accepted (header :: rest) ended rows ∧ loadCSV (header :: rest) ended = .ok rows) ∨
      ∃ e, Wrong (header :: rest) ended e ∧ loadCSV (header :: rest) ended = .error e := by
  obtain ⟨r, hr, rfl, rfl, hfileLine, hload⟩ := loadCSV_of_goodHeader hheader rest ended
  rw [hload]
  rcases loadRows_cases hr { exchange := [], symbol := [], stream := [] } with
    ⟨hfit, hended, hrows⟩ | ⟨fileLine, hfit, hended, hrows⟩ |
    ⟨good, line, later, hlines, hgood, hbad⟩
  · rw [hrows]
    dsimp only
    by_cases hnil : r.lines = []
    · rw [hnil, List.map_nil, if_pos rfl, hended]
      exact .inr ⟨_, .noStreams rfl hheader rfl, rfl⟩
    · rw [if_neg (fun h => hnil (List.map_eq_nil_iff.mp h))]
      exact .inl ⟨_, ⟨hended, header, r.lines, rfl, hnil, hheader, hfit, rfl⟩, rfl⟩
  · rw [hrows]
    refine .inr ⟨_, .lineTooLong hended ?_, rfl⟩
    rintro header' rest' ⟨⟩
    exact ⟨hheader, hfit⟩
  · have hnumber : (1 + UInt32.ofNat good.length + 1).toInt32 = lineNumber (good.length + 2) := by
      rw [lineNumber, UInt32.ofNat_add, UInt32.add_comm 1, UInt32.add_assoc]
      rfl
    rw [hfileLine, hnumber] at hbad
    rw [hlines]
    rcases hbad with ⟨hlt, hrows⟩ | ⟨hlt, hrows⟩
    · rw [hrows]
      exact .inr ⟨_, .tooFewColumns rfl hheader hgood hlt, rfl⟩
    · rw [hrows]
      exact .inr ⟨_, .tooManyColumns rfl hheader hgood hlt, rfl⟩

theorem loadCSV_cases (lines : List (List UInt8)) (ended : LinesEnd) :
    (∃ rows, Accepted lines ended rows ∧ loadCSV lines ended = .ok rows) ∨
      ∃ e, Wrong lines ended e ∧ loadCSV lines ended = .error e := by
  cases lines with
  | nil =>
    cases ended with
    | noMoreLines => exact .inr ⟨_, .headerMissing rfl rfl, rfl⟩
    | lineLengthLimitExceeded fileLine => exact .inr ⟨_, .lineTooLong rfl nofun, rfl⟩
  | cons header rest =>
    rcases parseHeaderLine_cases columnNames_nodup header with ⟨hheader, -⟩ |
      ⟨before, column, after, hnames, hcolumn, hbefore, hfirst, hparse⟩ |
      ⟨earlier, name, later, hnames, honce, hearlier, hmissing, hparse⟩
    · exact loadCSV_cases_of_goodHeader hheader rest ended
    · refine .inr ⟨_, .duplicatedColumn rfl hnames hcolumn hbefore hfirst, ?_⟩
      rw [loadCSV, readHeader_of_lines, hparse]
    · refine .inr ⟨_, .missingColumn rfl hnames honce hearlier hmissing, ?_⟩
      rw [loadCSV, readHeader_of_lines, hparse]

theorem Accepted.loadCSV_eq {lines : List (List UInt8)} {ended : LinesEnd}
    {rows : List StreamConfigRow} (h : Accepted lines ended rows) :
    loadCSV lines ended = .ok rows := by
  obtain ⟨rfl, header, rest, rfl, hne, hheader, hfit, rfl⟩ := h
  obtain ⟨r, hr, hlines, hended, -, hload⟩ := loadCSV_of_goodHeader hheader rest .noMoreLines
  obtain ⟨r', current', -, hlines', hended', -, hrows⟩ := loadRows_of_fits hr
    (hlines.trans (List.append_nil rest).symm) hfit { exchange := [], symbol := [], stream := [] } []
  have hread : r'.readRow = .ok none := by
    rw [readRow, nextLine, hlines', hended', hended]
  rw [hload, hrows, loadRows_of_none hread]
  exact if_neg (fun h => hne (List.map_eq_nil_iff.mp h))

/-! ### From the bytes of the file -/

section File

open LineReading

variable {blockLen : ℕ} {file : List UInt8}

theorem outcome_noMoreLines_iff (segs : List (List UInt8)) :
    (outcome blockLen segs).2 = .noMoreLines ↔ ∀ segment ∈ segs, segment.length < blockLen := by
  have hprefix := List.takeWhile_prefix (fun segment : List UInt8 =>
    decide (segment.length < blockLen)) (l := segs)
  unfold outcome
  dsimp only
  constructor
  · intro hend segment hsegment
    split at hend
    · rename_i hlength
      rw [← hprefix.eq_of_length hlength] at hsegment
      simpa using List.mem_takeWhile_imp hsegment
    · cases hend
  · intro hall
    rw [List.takeWhile_eq_self_iff.mpr (fun segment hmem => decide_eq_true (hall segment hmem)),
      if_pos rfl]

theorem outcome_lines_of_short {segs : List (List UInt8)}
    (hall : ∀ segment ∈ segs, segment.length < blockLen) :
    outcome blockLen segs = (segs.map LineReader.cLine, .noMoreLines) := by
  unfold outcome
  rw [List.takeWhile_eq_self_iff.mpr (fun segment hmem => decide_eq_true (hall segment hmem))]
  exact congrArg _ (if_pos rfl)

/-- The file is accepted, in whatever order the threads of the line reader take their steps, exactly
if all its lines are shorter than a block, its header has each of the three columns once, and the
other lines, of which there is one, have as many columns as the header. -/
theorem loadCSV_file_eq_ok_iff (hblock : 2 ≤ blockLen) (memory : Memory) (file : List UInt8)
    (rounds : List (List ReaderThread)) (hfair : ∀ turn ∈ rounds, round.Sublist turn)
    (hmany : (segments 10 (LineReader.body file)).length < rounds.length) :
    let s := rounds.flatten.foldl (step blockLen) (start blockLen memory file)
    ∃ ended, s.ended = some ended ∧ ∀ rows, loadCSV s.lines ended = .ok rows ↔
      (∀ segment ∈ segments 10 (LineReader.body file), segment.length < blockLen) ∧
        Accepted ((segments 10 (LineReader.body file)).map LineReader.cLine) .noMoreLines rows := by
  intro s
  obtain ⟨done, ended, h, hended⟩ := inv_ended_of_rounds hblock memory file hfair hmany
  have houtcome := h.outcome_of_ended hended
  refine ⟨ended, hended, fun rows => ⟨fun hload => ?_, ?_⟩⟩
  · rcases loadCSV_cases s.lines ended with ⟨rows', haccepted, hload'⟩ | ⟨e, -, hload'⟩
    · cases hload.symm.trans hload'
      have hend : (outcome blockLen (segments 10 (LineReader.body file))).2 = .noMoreLines := by
        rw [houtcome]
        exact haccepted.1
      have hshort := (outcome_noMoreLines_iff _).mp hend
      have hlines := houtcome.symm.trans (outcome_lines_of_short hshort)
      refine ⟨hshort, ?_⟩
      rw [← (Prod.mk.inj hlines).1, ← (Prod.mk.inj hlines).2]
      exact haccepted
    · cases hload.symm.trans hload'
  · rintro ⟨hshort, haccepted⟩
    have hlines := houtcome.symm.trans (outcome_lines_of_short hshort)
    change loadCSV (s.lines, ended).1 (s.lines, ended).2 = _
    rw [hlines]
    exact haccepted.loadCSV_eq

/-- A file of two lines of which the second lacks a column. -/
def truncatedFile : List UInt8 := WebSocket.ascii "exchange,symbol,stream\nBINANCE,BTCUSDT\n"

theorem loadCSV_file_eq_ok_iff_truncatedFile :
    ∃ ended, ((List.replicate 3 round).flatten.foldl (step 1048576)
        (start 1048576 (fun _ => 0) truncatedFile)).ended = some ended ∧
      ∀ rows, loadCSV ((List.replicate 3 round).flatten.foldl (step 1048576)
          (start 1048576 (fun _ => 0) truncatedFile)).lines ended = .ok rows ↔
        (∀ segment ∈ segments 10 (LineReader.body truncatedFile), segment.length < 1048576) ∧
          Accepted ((segments 10 (LineReader.body truncatedFile)).map LineReader.cLine)
            .noMoreLines rows :=
  loadCSV_file_eq_ok_iff (by decide) (fun _ => 0) truncatedFile
    (List.replicate 3 round) (by decide) (by decide)

/-- A file that is rejected goes wrong where the error says, and nowhere before. -/
theorem loadCSV_file_error (hblock : 2 ≤ blockLen) (memory : Memory) (file : List UInt8)
    (rounds : List (List ReaderThread)) (hfair : ∀ turn ∈ rounds, round.Sublist turn)
    (hmany : (segments 10 (LineReader.body file)).length < rounds.length) :
    let s := rounds.flatten.foldl (step blockLen) (start blockLen memory file)
    ∃ ended, s.ended = some ended ∧ ∀ e, loadCSV s.lines ended = .error e →
      Wrong (outcome blockLen (segments 10 (LineReader.body file))).1
        (outcome blockLen (segments 10 (LineReader.body file))).2 e := by
  intro s
  obtain ⟨done, ended, h, hended⟩ := inv_ended_of_rounds hblock memory file hfair hmany
  refine ⟨ended, hended, fun e hload => ?_⟩
  rw [h.outcome_of_ended hended]
  rcases loadCSV_cases s.lines ended with ⟨rows, -, hload'⟩ | ⟨e', hwrong, hload'⟩
  · cases hload.symm.trans hload'
  · cases hload.symm.trans hload'
    exact hwrong

theorem truncatedFile_lines :
    outcome 1048576 (segments 10 (LineReader.body truncatedFile)) =
      ([WebSocket.ascii "exchange,symbol,stream", WebSocket.ascii "BINANCE,BTCUSDT"],
        .noMoreLines) := by
  decide +kernel

theorem loadCSV_truncatedFile :
    loadCSV [WebSocket.ascii "exchange,symbol,stream", WebSocket.ascii "BINANCE,BTCUSDT"]
      .noMoreLines = .error (.csv (.tooFewColumns 2)) := by
  decide +kernel

/-- The truncated file is rejected, and its second line lacks a column. -/
theorem loadCSV_file_error_truncatedFile :
    ∃ ended, ((List.replicate 3 round).flatten.foldl (step 1048576)
        (start 1048576 (fun _ => 0) truncatedFile)).ended = some ended ∧
      loadCSV ((List.replicate 3 round).flatten.foldl (step 1048576)
        (start 1048576 (fun _ => 0) truncatedFile)).lines ended =
          .error (.csv (.tooFewColumns 2)) ∧
      Wrong [WebSocket.ascii "exchange,symbol,stream", WebSocket.ascii "BINANCE,BTCUSDT"]
        .noMoreLines (.csv (.tooFewColumns 2)) := by
  obtain ⟨ended, hended, herror⟩ := loadCSV_file_error (show 2 ≤ 1048576 by decide)
    (fun _ => 0) truncatedFile (List.replicate 3 round) (by decide) (by decide)
  obtain ⟨_, h⟩ := inv_run (show 2 ≤ 1048576 by decide) (fun _ => 0) truncatedFile
    (List.replicate 3 round).flatten
  have hlines := truncatedFile_lines.symm.trans (h.outcome_of_ended hended)
  have hload := loadCSV_truncatedFile
  rw [(Prod.mk.inj hlines).1, (Prod.mk.inj hlines).2] at hload
  have hwrong := herror _ hload
  rw [truncatedFile_lines] at hwrong
  exact ⟨ended, hended, hload, hwrong⟩

end File

end StreamConfig

end HftSystem
