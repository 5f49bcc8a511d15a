import HftSystem.InstrumentIdentity
import HftSystem.StreamTable

/-!
The startup of the program, up to its threads: the environment file, the configuration of
the streams, the registry with the ids that `main` expects, and the request that opens the
connection. What stands in the two files cannot add a line to that request.
-/
namespace HftSystem

open Segments CSVReader

/-! ### The environment file -/

/-- The environment of the process. -/
abbrev Environment := List UInt8 → Option (List UInt8)

namespace Environment

/-- An empty name, or one with an equals sign, is refused. -/
def setenv (env : Environment) (name value : List UInt8) : Environment :=
  if name = [] ∨ 61 ∈ name then env else Function.update env name (some value)

def isBlank (c : UInt8) : Bool := c = 32 || c = 9 || c = 10 || c = 13

def trimBlank (s : List UInt8) : List UInt8 := (s.dropWhile isBlank).rdropWhile isBlank

/-- The name and the value that a line of the file sets, if it sets any. -/
def lineEntry (line : List UInt8) : Option (List UInt8 × List UInt8) :=
  if line = [] ∨ line.head? = some 35 then none
  else if 61 ∈ line then
    some (WebSocket.cString (trimBlank (first 61 line)),
      WebSocket.cString (trimBlank (afterFirst 61 line)))
  else none

/-- The loop of `loadEnv` over the lines that `getline` returns. -/
def loadLines (env : Environment) (lines : List (List UInt8)) : Environment :=
  lines.foldl (fun env line =>
    match lineEntry line with
    | none => env
    | some (name, value) => env.setenv name value) env

/-- A file that cannot be opened leaves the environment as it is. -/
def loadEnv (env : Environment) : Option (List UInt8) → Environment
  | none => env
  | some file => env.loadLines (segments 10 file)

/-- The entries that take effect. -/
def entries (lines : List (List UInt8)) : List (List UInt8 × List UInt8) :=
  (lines.filterMap lineEntry).filter (fun entry => entry.1 ≠ [])

theorem mem_of_mem_trimBlank {c : UInt8} {s : List UInt8} (h : c ∈ trimBlank s) : c ∈ s :=
  (List.dropWhile_suffix _).subset ((List.rdropWhile_prefix _ _).subset h)

theorem mem_of_mem_cString {c : UInt8} {s : List UInt8} (h : c ∈ WebSocket.cString s) : c ∈ s :=
  (List.takeWhile_prefix _).subset h

/-- The name of an entry stands in front of the first equals sign of its line. -/
theorem lineEntry_eq_some {line name value : List UInt8}
    (h : lineEntry line = some (name, value)) :
    name = WebSocket.cString (trimBlank (first 61 line)) ∧
      value = WebSocket.cString (trimBlank (afterFirst 61 line)) := by
  unfold lineEntry at h
  split at h
  · cases h
  · split at h
    · cases h
      exact ⟨rfl, rfl⟩
    · cases h

theorem notMem_name {line name value : List UInt8} (h : lineEntry line = some (name, value)) :
    61 ∉ name := by
  obtain ⟨rfl, -⟩ := lineEntry_eq_some h
  intro hmem
  exact not_mem_first line (mem_of_mem_trimBlank (mem_of_mem_cString hmem))

theorem loadLines_apply (env : Environment) (lines : List (List UInt8)) (name : List UInt8) :
    env.loadLines lines name = ((entries lines).reverse.lookup name).or (env name) := by
  induction lines using List.reverseRecOn with
  | nil => rfl
  | append_singleton lines line ih =>
    have hstep : env.loadLines (lines ++ [line]) =
        match lineEntry line with
        | none => env.loadLines lines
        | some (name, value) => (env.loadLines lines).setenv name value := by
      rw [loadLines, List.foldl_append]
      rfl
    rw [hstep, entries, List.filterMap_append, List.filter_append]
    cases hentry : lineEntry line with
    | none => simpa [hentry, entries] using ih
    | some entry =>
      obtain ⟨name', value⟩ := entry
      have hequals := notMem_name hentry
      dsimp only
      by_cases hempty : name' = []
      · subst hempty
        simpa [hentry, entries, setenv] using ih
      · rw [setenv, if_neg (not_or.mpr ⟨hempty, hequals⟩)]
        by_cases hname : name = name'
        · subst hname
          simp [hentry, hempty]
        · have hne : (name == name') = false := by simpa using hname
          rw [Function.update_of_ne hname, ih]
          simp [hentry, hempty, entries, List.lookup_cons, hne]

/-- After the file has been loaded a name has the value of the last line that sets it, and keeps
its old value if there is no such line. -/
theorem loadEnv_apply (env : Environment) (file name : List UInt8) :
    env.loadEnv (some file) name =
      ((entries (segments 10 file)).reverse.lookup name).or (env name) :=
  env.loadLines_apply (segments 10 file) name

end Environment

/-! ### The path of the request -/

namespace StreamConfig

open WebSocket

/-- One turn of the loop of `buildBinanceURL`, with its flag and its stream. -/
def appendStream (acc : Bool × List UInt8) (r : StreamConfigRow) : Bool × List UInt8 :=
  if r.exchange ≠ ascii "BINANCE" then acc
  else (false, acc.2 ++ (if acc.1 then [] else ascii "/") ++ r.stream)

def buildBinanceURL (rows : List StreamConfigRow) : List UInt8 :=
  ascii "wss://stream.binance.com:9443/stream?streams=" ++ (rows.foldl appendStream (true, [])).2

/-- `find` of a text, none where the source has `npos`. -/
def find (s pattern : List UInt8) : Option ℕ :=
  (List.range (s.length + 1)).find? (fun i => pattern.isPrefixOf (s.drop i))

/-- The path that `main` takes from the URL; `substr` would throw where it is none. -/
def binancePath (rows : List StreamConfigRow) : Option (List UInt8) :=
  (find (buildBinanceURL rows) (ascii "/stream?")).map (fun i => (buildBinanceURL rows).drop i)

/-- The streams of the exchange, in the order of the rows. -/
def binanceStreams (rows : List StreamConfigRow) : List (List UInt8) :=
  (rows.filter (fun r => r.exchange = ascii "BINANCE")).map StreamConfigRow.stream

theorem foldl_appendStream (rows : List StreamConfigRow) :
    rows.foldl appendStream (true, []) =
      (decide (binanceStreams rows = []), [47].intercalate (binanceStreams rows)) := by
  induction rows using List.reverseRecOn with
  | nil => rfl
  | append_singleton rows r ih =>
    rw [List.foldl_append, ih, List.foldl_cons, List.foldl_nil, appendStream]
    by_cases hexchange : r.exchange = ascii "BINANCE"
    · have hstreams : binanceStreams (rows ++ [r]) = binanceStreams rows ++ [r.stream] := by
        simp [binanceStreams, hexchange]
      rw [if_neg (not_not.mpr hexchange), hstreams, intercalate_concat]
      refine Prod.ext ?_ ?_
      · exact (decide_eq_false (by simp)).symm
      · by_cases hnil : binanceStreams rows = []
        · rw [if_pos hnil, if_pos (decide_eq_true hnil)]
        · rw [if_neg hnil, if_neg (by simpa using hnil)]
          rfl
    · have hstreams : binanceStreams (rows ++ [r]) = binanceStreams rows := by
        simp [binanceStreams, hexchange]
      rw [if_pos hexchange, hstreams]

/-- A text that is found in the first part, and not before, is found there whatever follows. -/
theorem find_append {base pattern : List UInt8} {n : ℕ}
    (hlength : n + pattern.length ≤ base.length) (hat : pattern <+: base.drop n)
    (hbefore : ∀ j < n, ¬ pattern <+: base.drop j) (s : List UInt8) :
    find (base ++ s) pattern = some n := by
  refine List.find?_range_eq_some.mpr ⟨?_, ?_, ?_⟩
  · rw [List.isPrefixOf_iff_prefix, List.drop_append_of_le_length (by omega)]
    exact hat.trans (List.prefix_append _ _)
  · rw [List.mem_range, List.length_append]
    omega
  · intro j hj
    rw [Bool.not_eq_true', ← Bool.not_eq_true, List.isPrefixOf_iff_prefix,
      List.drop_append_of_le_length (by omega)]
    intro hprefix
    refine hbefore j hj (List.prefix_of_prefix_length_le hprefix (List.prefix_append _ _) ?_)
    rw [List.length_drop]
    omega

/-- The path asks for the streams of the exchange, whatever texts the rows hold. -/
theorem binancePath_eq (rows : List StreamConfigRow) :
    binancePath rows =
      some (ascii "/stream?streams=" ++ [47].intercalate (binanceStreams rows)) := by
  have hfind : find (buildBinanceURL rows) (ascii "/stream?") = some 29 :=
    find_append (by decide) (by decide) (by decide) _
  rw [binancePath, hfind, Option.map_some, buildBinanceURL, foldl_appendStream,
    List.drop_append_of_le_length (by decide)]
  rfl

end StreamConfig

/-! ### The request -/

open WebSocket StreamConfig

/-- The lines of the request, without their line feeds. -/
def requestLines (texts : HandshakeTexts) (path : List UInt8) : List (List UInt8) :=
  [ascii "GET " ++ path ++ ascii " HTTP/1.1\r", ascii "Host: " ++ texts.host ++ ascii "\r",
    ascii "Upgrade: websocket\r", ascii "Connection: Upgrade\r",
    ascii "Sec-WebSocket-Key: " ++ texts.websocketKey ++ ascii "\r",
    ascii "Sec-WebSocket-Version: 13\r"] ++
  (if texts.apiKey = [] then [] else [ascii "X-MBX-APIKEY: " ++ texts.apiKey ++ ascii "\r"]) ++
  [ascii "\r"]

theorem handshakeRequest_eq_flatMap (texts : HandshakeTexts) (path : List UInt8) :
    handshakeRequest texts path [] =
      (requestLines texts path).flatMap (fun line => line ++ [10]) := by
  have hget : ascii " HTTP/1.1\r\n" = ascii " HTTP/1.1\r" ++ [10] := by decide
  have hend : ascii "\r\n" = ascii "\r" ++ [10] := by decide
  have hupgrade : ascii "Upgrade: websocket\r\n" = ascii "Upgrade: websocket\r" ++ [10] := by decide
  have hconnection : ascii "Connection: Upgrade\r\n" = ascii "Connection: Upgrade\r" ++ [10] := by
    decide
  have hversion : ascii "Sec-WebSocket-Version: 13\r\n" =
      ascii "Sec-WebSocket-Version: 13\r" ++ [10] := by decide
  unfold handshakeRequest requestLines
  rw [hget, hend, hupgrade, hconnection, hversion, if_pos rfl]
  by_cases hkey : texts.apiKey = []
  · rw [if_pos hkey, if_pos hkey]
    simp only [List.flatMap_append, List.flatMap_cons, List.flatMap_nil, List.append_assoc,
      List.append_nil]
  · rw [if_neg hkey, if_neg hkey]
    simp only [List.flatMap_append, List.flatMap_cons, List.flatMap_nil, List.append_assoc,
      List.append_nil]

/-- Texts without a line feed make no lines of their own. -/
theorem segments_handshakeRequest {texts : HandshakeTexts} {path : List UInt8} (hpath : 10 ∉ path)
    (hhost : 10 ∉ texts.host) (hkey : 10 ∉ texts.websocketKey) (hapiKey : 10 ∉ texts.apiKey) :
    segments 10 (handshakeRequest texts path []) = requestLines texts path := by
  rw [handshakeRequest_eq_flatMap]
  have hparts : ∀ {s t u : List UInt8}, 10 ∉ s → 10 ∉ t → 10 ∉ u → 10 ∉ s ++ t ++ u := by
    intro s t u hs ht hu hmem
    rcases List.mem_append.mp hmem with hmem | hmem
    · exact (List.mem_append.mp hmem).elim hs ht
    · exact hu hmem
  refine segments_flatMap (List.forall_mem_append.mpr ⟨List.forall_mem_append.mpr ⟨?_, ?_⟩, ?_⟩)
  · simp only [List.forall_mem_cons]
    refine ⟨?_, ?_, ?_, ?_, ?_, ?_, nofun⟩
    · exact hparts (by decide) hpath (by decide)
    · exact hparts (by decide) hhost (by decide)
    · decide
    · decide
    · exact hparts (by decide) hkey (by decide)
    · decide
  · intro line hline
    split at hline
    · cases hline
    · rw [List.mem_singleton.mp hline]
      exact hparts (by decide) hapiKey (by decide)
  · intro line hline
    rw [List.mem_singleton.mp hline]
    decide

/-! ### No line feed in the texts -/

theorem mem_of_mem_trim {c : UInt8} {column : List UInt8} (h : c ∈ trim column) : c ∈ column :=
  (List.dropWhile_suffix _).subset ((List.rdropWhile_prefix _ _).subset h)

theorem mem_of_mem_afterFirst {c sep : UInt8} {s : List UInt8} (h : c ∈ afterFirst sep s) :
    c ∈ s :=
  (List.dropWhile_suffix _).subset (List.mem_of_mem_drop h)

theorem mem_of_mem_cLine {c : UInt8} {segment : List UInt8} (h : c ∈ LineReader.cLine segment) :
    c ∈ segment := by
  have hmem := (List.takeWhile_prefix _).subset h
  split at hmem
  · exact List.mem_of_mem_dropLast hmem
  · exact hmem

theorem mem_of_mem_columns {c : UInt8} {line column : List UInt8} (hcolumn : column ∈ columns line)
    (h : c ∈ column) : c ∈ line := by
  have hmem : c ∈ [44].intercalate (columns line) := mem_intercalate_of_mem hcolumn h
  rwa [columns, List.intercalate_splitOn] at hmem

theorem mem_of_mem_field {c : UInt8} {header line name : List UInt8}
    (h : c ∈ field header line name) : c ∈ line := by
  unfold field at h
  have hmem := mem_of_mem_trim h
  rw [List.getD_eq_getElem?_getD] at hmem
  cases hget : (columns line)[(headerNames header).idxOf name]? with
  | none =>
    rw [hget] at hmem
    cases hmem
  | some column =>
    rw [hget] at hmem
    exact mem_of_mem_columns (List.mem_of_getElem? hget) hmem

theorem toLower_ne_ten {c : UInt8} (h : c ≠ 10) : toLower c ≠ 10 := by
  unfold toLower
  split
  · rename_i hupper
    have hlow := UInt8.le_iff_toNat_le.mp hupper.1
    have hhigh := UInt8.le_iff_toNat_le.mp hupper.2
    intro heq
    have hnat := congrArg UInt8.toNat heq
    rw [UInt8.toNat_add] at hnat
    change 65 ≤ c.toNat at hlow
    change c.toNat ≤ 90 at hhigh
    change (c.toNat + 32) % 256 = 10 at hnat
    omega
  · exact h

/-- No line of the file has a line feed, and so none of the rows has one. -/
theorem notMem_stream {lines : List (List UInt8)} {ended : LinesEnd} {rows : List StreamConfigRow}
    (hlines : ∀ line ∈ lines, 10 ∉ line) (h : Accepted lines ended rows) :
    ∀ row ∈ rows, 10 ∉ row.stream := by
  obtain ⟨-, header, rest, rfl, -, -, -, rfl⟩ := h
  intro row hrow hmem
  obtain ⟨line, hline, rfl⟩ := List.mem_map.mp hrow
  obtain ⟨c, hc, hten⟩ := List.mem_map.mp hmem
  refine toLower_ne_ten ?_ hten
  rintro rfl
  exact hlines line (List.mem_cons_of_mem _ hline) (mem_of_mem_field hc)

theorem notMem_path {rows : List StreamConfigRow} (h : ∀ row ∈ rows, 10 ∉ row.stream) :
    10 ∉ ascii "/stream?streams=" ++ [47].intercalate (binanceStreams rows) := by
  intro hmem
  rcases List.mem_append.mp hmem with hmem | hmem
  · exact absurd hmem (by decide)
  · rcases TableLine.mem_intercalate_singleton hmem with heq | ⟨stream, hstream, hmem⟩
    · exact absurd heq (by decide)
    · obtain ⟨row, hrow, rfl⟩ := List.mem_map.mp hstream
      exact h row (List.mem_of_mem_filter hrow) hmem

theorem notMem_getenv {env : Environment} {name : List UInt8}
    (henv : ∀ value, env name = some value → 10 ∉ value) (envFile : Option (List UInt8)) :
    ∀ value, env.loadEnv envFile name = some value → 10 ∉ value := by
  cases envFile with
  | none => exact henv
  | some file =>
    intro value hvalue
    rw [Environment.loadEnv, Environment.loadLines_apply] at hvalue
    cases hlookup : (Environment.entries (segments 10 file)).reverse.lookup name with
    | none =>
      rw [hlookup] at hvalue
      exact henv value hvalue
    | some value' =>
      rw [hlookup] at hvalue
      cases hvalue
      obtain ⟨before, after, hentries, -⟩ := List.lookup_eq_some_iff.mp hlookup
      have hentry : (name, value) ∈ Environment.entries (segments 10 file) := by
        rw [← List.mem_reverse, hentries]
        simp
      obtain ⟨line, hline, hset⟩ := List.mem_filterMap.mp (List.mem_of_mem_filter hentry)
      obtain ⟨-, rfl⟩ := Environment.lineEntry_eq_some hset
      intro hmem
      have hafter := Environment.mem_of_mem_trimBlank (Environment.mem_of_mem_cString hmem)
      exact not_mem_of_mem_segments hline (mem_of_mem_afterFirst hafter)

/-- The request that `main` opens the connection with. -/
def binanceRequest (env : Environment) (envFile : Option (List UInt8)) (rows : List StreamConfigRow)
    (websocketKey : List UInt8) : Option (List UInt8) :=
  (binancePath rows).map (fun path => handshakeRequest
    { host := ascii "stream-sbe.binance.com"
      apiKey := (env.loadEnv envFile (ascii "BINANCE_API_KEY")).getD []
      websocketKey } path [])

section

open LineReading ByteMemory

variable {blockLen : ℕ}

/-- Whatever stands in the two files, the request has the lines that the code writes: the texts of
the files neither end one of them nor add another. -/
theorem segments_binanceRequest (hblock : 2 ≤ blockLen) (memory : Memory) (file : List UInt8)
    (schedule : List ReaderThread) (env : Environment)
    (henv : ∀ value, env (ascii "BINANCE_API_KEY") = some value → 10 ∉ value)
    (envFile : Option (List UInt8)) {websocketKey : List UInt8} (hkey : 10 ∉ websocketKey) :
    let s := schedule.foldl (step blockLen) (start blockLen memory file)
    ∀ ended rows, s.ended = some ended → loadCSV s.lines ended = .ok rows →
      ∃ request, binanceRequest env envFile rows websocketKey = some request ∧
        segments 10 request = requestLines
          { host := ascii "stream-sbe.binance.com"
            apiKey := (env.loadEnv envFile (ascii "BINANCE_API_KEY")).getD []
            websocketKey }
          (ascii "/stream?streams=" ++ [47].intercalate (binanceStreams rows)) := by
  intro s ended rows hended hload
  obtain ⟨done, h⟩ := inv_run hblock memory file schedule
  have hlines : ∀ line ∈ s.lines, 10 ∉ line := by
    intro line hline
    rw [h.lines_eq] at hline
    obtain ⟨segment, hsegment, rfl⟩ := List.mem_map.mp hline
    have hsplit : segment ∈ segments 10 (LineReader.body file) := by
      rw [h.split]
      exact List.mem_append_left _ hsegment
    exact fun hmem => not_mem_of_mem_segments hsplit (mem_of_mem_cLine hmem)
  have haccepted : Accepted s.lines ended rows := by
    rcases loadCSV_cases s.lines ended with ⟨rows', haccepted, hload'⟩ | ⟨e, -, hload'⟩
    · cases hload.symm.trans hload'
      exact haccepted
    · cases hload.symm.trans hload'
  have hapiKey : 10 ∉ (env.loadEnv envFile (ascii "BINANCE_API_KEY")).getD [] := by
    cases hget : env.loadEnv envFile (ascii "BINANCE_API_KEY") with
    | none => exact List.not_mem_nil
    | some value => exact notMem_getenv henv envFile value hget
  refine ⟨_, by rw [binanceRequest, binancePath_eq, Option.map_some], ?_⟩
  have hhost : 10 ∉ ascii "stream-sbe.binance.com" := by decide
  exact segments_handshakeRequest (notMem_path (notMem_stream hlines haccepted)) hhost hkey hapiKey

theorem segments_binanceRequest_shippedTable :
    ∃ request, binanceRequest (fun _ => none) (some (ascii "BINANCE_API_KEY = key\n"))
        (StreamTable.shippedTable.rows.map StreamTable.shippedTable.configRow) (ascii "a2V5") =
          some request ∧
      segments 10 request = requestLines
        { host := ascii "stream-sbe.binance.com"
          apiKey := ascii "key"
          websocketKey := ascii "a2V5" } (ascii "/stream?streams=btcusdt@depth") := by
  have hended : ([.caller, .caller, .caller].foldl (step 128)
      (start 128 (fun _ => 0) (StreamTable.shippedTable.file false true))).ended =
        some .noMoreLines := by decide +kernel
  have hlines : ([.caller, .caller, .caller].foldl (step 128)
      (start 128 (fun _ => 0) (StreamTable.shippedTable.file false true))).lines =
        StreamTable.shippedTable.lines.map TableLine.text := by decide +kernel
  obtain ⟨request, hrequest, hsegments⟩ := segments_binanceRequest (show 2 ≤ 128 by decide)
    (fun _ => 0) (StreamTable.shippedTable.file false true) [.caller, .caller, .caller]
    (fun _ => none) nofun (some (ascii "BINANCE_API_KEY = key\n"))
    (show 10 ∉ ascii "a2V5" by decide) _ _ hended (hlines ▸ StreamTable.shippedTable.accepted.loadCSV_eq)
  refine ⟨request, hrequest, hsegments.trans ?_⟩
  decide +kernel

end

/-! ### The ids that `main` expects -/

/-- How the checks of `main` fail: with an exception or with an assertion. They are assertions
themselves, so a build with `NDEBUG` has none of them. -/
inductive IdCheckError where
  | lookup (e : LookupError)
  | assertion (symbol : List UInt8)
deriving DecidableEq

def expectedIds : List (List UInt8 × UInt32) :=
  [(ascii "BTCUSDT", 0), (ascii "ETHUSDT", 1), (ascii "BNBUSDT", 2)]

def checkId (registry : VenueRegistry) (symbol : List UInt8) (id : UInt32) :
    Except IdCheckError Unit :=
  match registry.lookup (ascii "BINANCE") symbol with
  | .error e => .error (.lookup e)
  | .ok found => if found = id then .ok () else .error (.assertion symbol)

def checkIds (registry : VenueRegistry) : Except IdCheckError Unit :=
  expectedIds.forM (fun expected => checkId registry expected.1 expected.2)

namespace VenueRegistry

open Occurrences

/-- A row whose own names have no separator is found under the id of its last occurrence. -/
theorem lookup_of_noSeparator {rows : List StreamRow} {row : StreamRow}
    (hexchange : 58 ∉ row.exchange) (hsymbol : 58 ∉ row.symbol) (hrow : row ∈ rows) :
    (ofRows rows).instrumentMap.lookup row.key =
      some (pack (venueId rows row.exchange) (symbolNumber rows row)) := by
  induction rows using List.reverseRecOn with
  | nil => cases hrow
  | append_singleton rows last ih =>
    rw [(ofRows_added rows last).instrument]
    by_cases heq : last = row
    · rw [heq, AList.lookup_insert, symbolNumber, lastIdxOf_concat_self, List.take_left]
    · have hmem := mem_of_mem_concat hrow heq
      have hlt := lastIdxOf_lt_length hmem
      have hvenue : row.exchange ∈ venues rows := mem_venues.mpr ⟨row, hmem, rfl⟩
      have hkey : row.key ≠ last.key := by
        intro hkey
        exact heq (StreamRow.key_inj hexchange hsymbol hkey.symm).symm
      rw [AList.lookup_insert_ne hkey, ih hmem, venueId_concat last hvenue, symbolNumber,
        symbolNumber, lastIdxOf_concat_ne hmem heq, List.take_append_of_le_length (by omega)]

/-- The first venue is that of the first row. -/
theorem venueId_eq_zero_iff {rows : List StreamRow} (hfew : (venues rows).length ≤ 65536)
    {exchange : List UInt8} (hmem : exchange ∈ venues rows) :
    venueId rows exchange = 0 ↔ (rows.head?.map StreamRow.exchange) = some exchange := by
  have hlt := List.idxOf_lt_length_of_mem hmem
  have hzero : venueId rows exchange = 0 ↔ (venues rows).idxOf exchange = 0 := by
    rw [venueId, ← UInt16.toNat_inj, UInt16.toNat_ofNat']
    change _ % 65536 = 0 ↔ _
    rw [Nat.mod_eq_of_lt (by omega)]
  rw [hzero]
  cases rows with
  | nil => cases hmem
  | cons row rows =>
    have hvenues : ∃ rest, venues (row :: rows) = row.exchange :: rest := by
      rw [venues, List.map_cons, List.eraseDups_cons]
      exact ⟨_, rfl⟩
    obtain ⟨rest, hvenues⟩ := hvenues
    rw [hvenues, List.idxOf_eq_zero_iff_head_eq (List.cons_ne_nil _ _), List.head_cons,
      List.head?_cons, Option.map_some, Option.some.injEq]

/-- A lookup returns a small number exactly if the exchange is that of the first row and the last
row of the instrument has this position among the rows of its exchange. -/
theorem lookup_eq_ok_iff {rows : List StreamRow} (hfew : (venues rows).length ≤ 65536)
    {exchange symbol : List UInt8} (hexchange : 58 ∉ exchange) (hsymbol : 58 ∉ symbol)
    {id : UInt32} (hid : id.toNat < 65536) :
    (ofRows rows).lookup exchange symbol = .ok id ↔
      (rows.head?.map StreamRow.exchange) = some exchange ∧ ⟨exchange, symbol⟩ ∈ rows ∧
        venueIndex rows ⟨exchange, symbol⟩ % 65536 = id.toNat := by
  by_cases hrow : ⟨exchange, symbol⟩ ∈ rows
  · have hvenue : exchange ∈ venues rows := mem_venues.mpr ⟨_, hrow, rfl⟩
    have hlookup := lookup_of_noSeparator hexchange hsymbol hrow
    have hpack : (ofRows rows).lookup exchange symbol = .ok id ↔
        pack (venueId rows exchange) (symbolNumber rows ⟨exchange, symbol⟩) = id := by
      unfold VenueRegistry.lookup
      rw [show key exchange symbol = StreamRow.key ⟨exchange, symbol⟩ from rfl, hlookup]
      dsimp only
      rw [Except.ok.injEq]
    rw [hpack, ← venueId_eq_zero_iff hfew hvenue, symbolNumber_eq hfew, ← UInt32.toNat_inj,
      toNat_pack, UInt16.toNat_ofNat', ← UInt16.toNat_inj]
    change _ * 65536 + _ % 65536 = _ ↔ _ = 0 ∧ _
    have hsmall := Nat.mod_lt (venueIndex rows ⟨exchange, symbol⟩) (show 0 < 65536 by decide)
    constructor
    · intro hsum
      exact ⟨by omega, hrow, by omega⟩
    · rintro ⟨hzero, -, hindex⟩
      omega
  · refine iff_of_false ?_ (fun h => hrow h.2.1)
    intro hok
    unfold VenueRegistry.lookup at hok
    have hnone : (ofRows rows).instrumentMap.lookup (key exchange symbol) = none := by
      refine AList.lookup_eq_none.mpr (fun hmem => ?_)
      obtain ⟨row, hmem, hkey⟩ := mem_instrumentMap.mp hmem
      have hsame : (⟨exchange, symbol⟩ : StreamRow) = ⟨row.exchange, row.symbol⟩ :=
        StreamRow.key_inj (show 58 ∉ (⟨exchange, symbol⟩ : StreamRow).exchange from hexchange)
          hsymbol hkey
      rw [hsame] at hrow
      exact hrow hmem
    rw [hnone] at hok
    cases hok

end VenueRegistry

theorem checkId_eq_ok_iff (registry : VenueRegistry) (symbol : List UInt8) (id : UInt32) :
    checkId registry symbol id = .ok () ↔ registry.lookup (ascii "BINANCE") symbol = .ok id := by
  unfold checkId
  cases registry.lookup (ascii "BINANCE") symbol with
  | error e => exact iff_of_false nofun nofun
  | ok found =>
    dsimp only
    rw [Except.ok.injEq]
    by_cases hfound : found = id
    · rw [if_pos hfound]
      exact iff_of_true rfl hfound
    · rw [if_neg hfound]
      exact iff_of_false nofun hfound

theorem forM_eq_ok_iff {α ε : Type} {f : α → Except ε Unit} {l : List α} :
    l.forM f = .ok () ↔ ∀ a ∈ l, f a = .ok () := by
  induction l with
  | nil => exact iff_of_true rfl nofun
  | cons a l ih =>
    have hcons : (a :: l).forM f = f a >>= fun _ => l.forM f := rfl
    rw [List.forall_mem_cons, ← ih, hcons]
    cases f a with
    | error e => exact iff_of_false nofun (fun h => nomatch h.1)
    | ok u => exact (and_iff_right rfl).symm

/-- Built without `NDEBUG`, the program gets past its checks exactly if the first row is one of the
exchange, and the last rows of the three symbols are its rows with the numbers 0, 1 and 2 (counted
in 16 bits). -/
theorem checkIds_eq_ok_iff {rows : List StreamRow}
    (hfew : (VenueRegistry.venues rows).length ≤ 65536) :
    checkIds (VenueRegistry.ofRows rows) = .ok () ↔
      (rows.head?.map StreamRow.exchange) = some (ascii "BINANCE") ∧
        ∀ expected ∈ expectedIds, ⟨ascii "BINANCE", expected.1⟩ ∈ rows ∧
          VenueRegistry.venueIndex rows ⟨ascii "BINANCE", expected.1⟩ % 65536 =
            expected.2.toNat := by
  have hsmall : ∀ expected ∈ expectedIds,
      58 ∉ expected.1 ∧ UInt32.toNat expected.2 < 65536 := by decide
  have hiff : ∀ expected ∈ expectedIds,
      (checkId (VenueRegistry.ofRows rows) expected.1 expected.2 = .ok () ↔
        (rows.head?.map StreamRow.exchange) = some (ascii "BINANCE") ∧
          ⟨ascii "BINANCE", expected.1⟩ ∈ rows ∧
          VenueRegistry.venueIndex rows ⟨ascii "BINANCE", expected.1⟩ % 65536 =
            expected.2.toNat) := by
    intro expected hexpected
    obtain ⟨hsymbol, hid⟩ := hsmall expected hexpected
    rw [checkId_eq_ok_iff]
    exact VenueRegistry.lookup_eq_ok_iff hfew (by decide) hsymbol hid
  rw [checkIds, forM_eq_ok_iff]
  constructor
  · intro hall
    refine ⟨?_, fun expected hexpected => ((hiff expected hexpected).mp (hall expected hexpected)).2⟩
    have hfirst : (ascii "BTCUSDT", 0) ∈ expectedIds := List.mem_cons_self
    exact ((hiff _ hfirst).mp (hall _ hfirst)).1
  · rintro ⟨hhead, hall⟩ expected hexpected
    exact (hiff expected hexpected).mpr ⟨hhead, hall expected hexpected⟩

/-- The rows of the file that the program comes with. -/
theorem checkIds_shipped :
    checkIds (.ofRows [⟨ascii "BINANCE", ascii "BTCUSDT"⟩, ⟨ascii "BINANCE", ascii "ETHUSDT"⟩,
      ⟨ascii "BINANCE", ascii "BNBUSDT"⟩]) = .ok () :=
  (checkIds_eq_ok_iff (by decide)).mpr (by decide)

end HftSystem
