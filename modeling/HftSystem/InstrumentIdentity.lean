import HftSystem.Occurrences
import HftSystem.OrderBookManager
import HftSystem.VenueRegistry
import Mathlib.Data.Fintype.Card

/-!
The identity of instruments after startup: the ids that the registry packs from its
16-bit counters, and the books that `main` registers for them row by row. Instruments
are kept apart exactly when no name contains the separator of the keys and the last
rows of the instruments do not meet in the 16-bit counters.
-/
namespace HftSystem

open Occurrences

/-! ### Ids and keys -/

namespace VenueRegistry

def venueOf (id : UInt32) : UInt16 := (id >>> 16).toUInt16

theorem toNat_pack (venue symbol : UInt16) :
    (pack venue symbol).toNat = venue.toNat * 65536 + symbol.toNat := by
  have hvenue := venue.toNat_lt
  have hsymbol := symbol.toNat_lt
  have hshift : (16 : UInt32).toNat % 32 = 16 := by decide
  have hor := Nat.shiftLeft_add_eq_or_of_lt hsymbol venue.toNat
  rw [pack, UInt32.toNat_or, UInt32.toNat_shiftLeft, UInt16.toNat_toUInt32, UInt16.toNat_toUInt32,
    hshift, Nat.shiftLeft_eq, Nat.mod_eq_of_lt (by omega), ← Nat.shiftLeft_eq, ← hor,
    Nat.shiftLeft_eq]

theorem venueOf_pack (venue symbol : UInt16) : venueOf (pack venue symbol) = venue := by
  have hsymbol := symbol.toNat_lt
  have hvenue := venue.toNat_lt
  apply UInt16.toNat_inj.mp
  have hshift : (16 : UInt32).toNat % 32 = 16 := by decide
  rw [venueOf, UInt32.toNat_toUInt16, UInt32.toNat_shiftRight, toNat_pack, hshift,
    Nat.shiftRight_eq_div_pow]
  omega

theorem pack_inj {venue symbol symbol' : UInt16} :
    pack venue symbol = pack venue symbol' ↔ symbol = symbol' := by
  constructor
  · intro h
    have hnat := congrArg UInt32.toNat h
    rw [toNat_pack, toNat_pack] at hnat
    exact UInt16.toNat_inj.mp (by omega)
  · rintro rfl
    rfl

end VenueRegistry

def StreamRow.key (row : StreamRow) : List UInt8 := VenueRegistry.key row.exchange row.symbol

/-- The key of names without the separator says which names they are. -/
theorem StreamRow.key_inj {row : StreamRow} (hexchange : 58 ∉ row.exchange)
    (hsymbol : 58 ∉ row.symbol) {exchange symbol : List UInt8}
    (h : VenueRegistry.key exchange symbol = row.key) : row = ⟨exchange, symbol⟩ := by
  obtain ⟨rfl, -, rfl⟩ := (List.append_cons_inj_of_notMem hexchange hsymbol).mp h.symm
  rfl

/-! ### Venues -/

namespace VenueRegistry

/-- The exchanges in the order of their first rows. -/
def venues (rows : List StreamRow) : List (List UInt8) :=
  (rows.map StreamRow.exchange).eraseDups

def venueId (rows : List StreamRow) (exchange : List UInt8) : UInt16 :=
  UInt16.ofNat ((venues rows).idxOf exchange)

theorem mem_venues {rows : List StreamRow} {exchange : List UInt8} :
    exchange ∈ venues rows ↔ ∃ row ∈ rows, row.exchange = exchange := by
  rw [venues, List.mem_eraseDups, List.mem_map]

theorem venues_concat_of_mem {rows : List StreamRow} {row : StreamRow}
    (h : row.exchange ∈ venues rows) : venues (rows ++ [row]) = venues rows := by
  rw [venues, List.map_append, List.map_singleton, eraseDups_concat_of_mem]
  · rfl
  · rwa [← List.mem_eraseDups]

theorem venues_concat_of_notMem {rows : List StreamRow} {row : StreamRow}
    (h : row.exchange ∉ venues rows) : venues (rows ++ [row]) = venues rows ++ [row.exchange] := by
  rw [venues, List.map_append, List.map_singleton, eraseDups_concat_of_notMem]
  · rfl
  · rwa [← List.mem_eraseDups]

theorem venueId_concat {rows : List StreamRow} (row : StreamRow) {exchange : List UInt8}
    (h : exchange ∈ venues rows) : venueId (rows ++ [row]) exchange = venueId rows exchange := by
  unfold venueId
  by_cases hrow : row.exchange ∈ venues rows
  · rw [venues_concat_of_mem hrow]
  · rw [venues_concat_of_notMem hrow, List.idxOf_append_of_mem h]

/-- The venue map after some rows. -/
structure VenuesOf (rows : List StreamRow) (r : VenueRegistry) : Prop where
  lookup : ∀ exchange, r.venueIds.lookup exchange =
    if exchange ∈ venues rows then some (venueId rows exchange) else none
  length : r.venueIds.entries.length = (venues rows).length

/-- The number that the row takes from the counter of its venue. -/
def symbolBase (rows : List StreamRow) (r : VenueRegistry) (row : StreamRow) : UInt16 :=
  if row.exchange ∈ venues rows then r.nextSymbolIdx (venueId rows row.exchange) else 0

/-- Everything that a row does to the registry. -/
structure Added (rows : List StreamRow) (r : VenueRegistry) (row : StreamRow)
    (r' : VenueRegistry) : Prop where
  venues : VenuesOf (rows ++ [row]) r'
  instrument : r'.instrumentMap = r.instrumentMap.insert row.key
    (pack (venueId (rows ++ [row]) row.exchange) (symbolBase rows r row))
  counter : r'.nextSymbolIdx (venueId (rows ++ [row]) row.exchange) = symbolBase rows r row + 1
  counters : ∀ vid, vid ≠ venueId (rows ++ [row]) row.exchange →
    r'.nextSymbolIdx vid = r.nextSymbolIdx vid

theorem addRow_added {rows : List StreamRow} {r : VenueRegistry} (h : VenuesOf rows r)
    (row : StreamRow) : Added rows r row (r.addRow row) := by
  have hlookup := h.lookup row.exchange
  unfold addRow getOrAddVenue
  by_cases hrow : row.exchange ∈ venues rows
  · rw [if_pos hrow] at hlookup
    rw [hlookup]
    have hid := venueId_concat row hrow
    refine ⟨⟨?_, ?_⟩, ?_, ?_, ?_⟩
    · intro exchange
      have hsame : venueId (rows ++ [row]) exchange = venueId rows exchange := by
        rw [venueId, venues_concat_of_mem hrow]
        rfl
      rw [hsame, venues_concat_of_mem hrow]
      exact h.lookup exchange
    · rw [venues_concat_of_mem hrow]
      exact h.length
    · rw [hid, symbolBase, if_pos hrow]
      rfl
    · rw [hid, symbolBase, if_pos hrow]
      exact Function.update_self _ _ _
    · intro vid hvid
      rw [hid] at hvid
      exact Function.update_of_ne hvid _ _
  · rw [if_neg hrow] at hlookup
    rw [hlookup]
    have hid : venueId (rows ++ [row]) row.exchange = UInt16.ofNat r.venueIds.entries.length := by
      rw [venueId, venues_concat_of_notMem hrow, List.idxOf_append_of_notMem hrow, h.length]
      simp
    have hnew : row.exchange ∉ r.venueIds := AList.lookup_eq_none.mp hlookup
    refine ⟨⟨?_, ?_⟩, ?_, ?_, ?_⟩
    · intro exchange
      dsimp only
      by_cases heq : exchange = row.exchange
      · rw [heq, AList.lookup_insert, if_pos, hid]
        rw [venues_concat_of_notMem hrow]
        simp
      · rw [AList.lookup_insert_ne heq, h.lookup, venues_concat_of_notMem hrow]
        by_cases hmem : exchange ∈ venues rows
        · rw [if_pos hmem, if_pos (List.mem_append_left _ hmem), venueId_concat row hmem]
        · rw [if_neg hmem, if_neg (by simp [hmem, heq])]
    · dsimp only
      rw [AList.entries_insert_of_notMem hnew, List.length_cons, h.length,
        venues_concat_of_notMem hrow, List.length_append, List.length_singleton]
    · dsimp only
      rw [hid, symbolBase, if_neg hrow, Function.update_self]
      rfl
    · dsimp only
      rw [hid, symbolBase, if_neg hrow, Function.update_self, Function.update_self]
    · intro vid hvid
      rw [hid] at hvid
      dsimp only
      rw [Function.update_of_ne hvid, Function.update_of_ne hvid]

theorem ofRows_concat (rows : List StreamRow) (row : StreamRow) :
    ofRows (rows ++ [row]) = (ofRows rows).addRow row := by
  simp [ofRows]

theorem venuesOf_ofRows (rows : List StreamRow) : VenuesOf rows (ofRows rows) := by
  induction rows using List.reverseRecOn with
  | nil => exact ⟨fun _ => rfl, rfl⟩
  | append_singleton rows row ih =>
    rw [ofRows_concat]
    exact (addRow_added ih row).venues

theorem ofRows_added (rows : List StreamRow) (row : StreamRow) :
    Added rows (ofRows rows) row (ofRows (rows ++ [row])) := by
  rw [ofRows_concat]
  exact addRow_added (venuesOf_ofRows rows) row

/-! ### The instruments of a registry -/

/-- A key is found exactly when it is the key of a row. -/
theorem mem_instrumentMap {rows : List StreamRow} {k : List UInt8} :
    k ∈ (ofRows rows).instrumentMap ↔ ∃ row ∈ rows, row.key = k := by
  induction rows using List.reverseRecOn with
  | nil => simp [ofRows]
  | append_singleton rows row ih =>
    rw [(ofRows_added rows row).instrument, AList.mem_insert, ih]
    constructor
    · rintro (rfl | ⟨a, ha, rfl⟩)
      · exact ⟨row, by simp, rfl⟩
      · exact ⟨a, List.mem_append_left _ ha, rfl⟩
    · rintro ⟨a, ha, rfl⟩
      rcases List.mem_append.mp ha with hold | hnew
      · exact Or.inr ⟨a, hold, rfl⟩
      · exact Or.inl (by rw [List.mem_singleton.mp hnew])

/-- No name contains the separator of the keys. -/
def NoSeparator (rows : List StreamRow) : Prop :=
  ∀ row ∈ rows, 58 ∉ row.exchange ∧ 58 ∉ row.symbol

theorem NoSeparator.concat {rows : List StreamRow} {row : StreamRow}
    (h : NoSeparator (rows ++ [row])) : NoSeparator rows :=
  fun a ha => h a (List.mem_append_left _ ha)

theorem NoSeparator.key_ne {rows : List StreamRow} (h : NoSeparator rows) {a b : StreamRow}
    (ha : a ∈ rows) (hne : a ≠ b) : a.key ≠ b.key := by
  intro hkey
  exact hne (StreamRow.key_inj (h a ha).1 (h a ha).2 hkey.symm)

/-- The symbol number of an instrument, as the registry finds it at the last of its rows. -/
def symbolNumber (rows : List StreamRow) (row : StreamRow) : UInt16 :=
  symbolBase (rows.take (lastIdxOf rows row)) (ofRows (rows.take (lastIdxOf rows row))) row

theorem lookup_instrument {rows : List StreamRow} (h : NoSeparator rows) {row : StreamRow}
    (hrow : row ∈ rows) :
    (ofRows rows).instrumentMap.lookup row.key =
      some (pack (venueId rows row.exchange) (symbolNumber rows row)) := by
  induction rows using List.reverseRecOn with
  | nil => exact absurd hrow (by simp)
  | append_singleton rows last ih =>
    rw [(ofRows_added rows last).instrument]
    by_cases heq : last = row
    · rw [heq, AList.lookup_insert, symbolNumber, lastIdxOf_concat_self, List.take_left]
    · have hmem := mem_of_mem_concat hrow heq
      have hlt := lastIdxOf_lt_length hmem
      have hvenue : row.exchange ∈ venues rows := mem_venues.mpr ⟨row, hmem, rfl⟩
      rw [AList.lookup_insert_ne (h.key_ne hrow (Ne.symm heq)), ih h.concat hmem,
        venueId_concat last hvenue, symbolNumber, symbolNumber, lastIdxOf_concat_ne hmem heq,
        List.take_append_of_le_length (by omega)]

/-! ### The counters -/

theorem venueId_inj {rows : List StreamRow} (hfew : (venues rows).length ≤ 65536)
    {exchange exchange' : List UInt8} (hmem : exchange ∈ venues rows)
    (hmem' : exchange' ∈ venues rows) (h : venueId rows exchange = venueId rows exchange') :
    exchange = exchange' := by
  have hlt := List.idxOf_lt_length_of_mem hmem
  have hlt' := List.idxOf_lt_length_of_mem hmem'
  have hnat := congrArg UInt16.toNat h
  rw [venueId, venueId, UInt16.toNat_ofNat', UInt16.toNat_ofNat'] at hnat
  exact (List.idxOf_inj hmem).mp (by omega)

theorem length_venues_le_concat (rows : List StreamRow) (row : StreamRow) :
    (venues rows).length ≤ (venues (rows ++ [row])).length := by
  by_cases hrow : row.exchange ∈ venues rows
  · rw [venues_concat_of_mem hrow]
  · rw [venues_concat_of_notMem hrow, List.length_append]
    omega

/-- The number of rows of an exchange. -/
def rowCount (rows : List StreamRow) (exchange : List UInt8) : ℕ :=
  (rows.map StreamRow.exchange).count exchange

theorem rowCount_concat_self (rows : List StreamRow) (row : StreamRow) :
    rowCount (rows ++ [row]) row.exchange = rowCount rows row.exchange + 1 := by
  simp [rowCount]

theorem rowCount_concat_ne (rows : List StreamRow) {row : StreamRow} {exchange : List UInt8}
    (hne : row.exchange ≠ exchange) :
    rowCount (rows ++ [row]) exchange = rowCount rows exchange := by
  simp [rowCount, hne]

theorem rowCount_of_notMem {rows : List StreamRow} {exchange : List UInt8}
    (h : exchange ∉ venues rows) : rowCount rows exchange = 0 := by
  rw [rowCount, List.count_eq_zero]
  rwa [venues, List.mem_eraseDups] at h

/-- The counter of a venue counts its rows. -/
theorem nextSymbolIdx_ofRows {rows : List StreamRow} (hfew : (venues rows).length ≤ 65536)
    {exchange : List UInt8} (hmem : exchange ∈ venues rows) :
    (ofRows rows).nextSymbolIdx (venueId rows exchange) =
      UInt16.ofNat (rowCount rows exchange) := by
  induction rows using List.reverseRecOn with
  | nil => exact absurd hmem (by simp [venues])
  | append_singleton rows row ih =>
    have hadded := ofRows_added rows row
    have hfew' := (length_venues_le_concat rows row).trans hfew
    by_cases heq : row.exchange = exchange
    · subst heq
      rw [hadded.counter, rowCount_concat_self, UInt16.ofNat_add, symbolBase]
      by_cases hold : row.exchange ∈ venues rows
      · rw [if_pos hold, ih hfew' hold]
        rfl
      · rw [if_neg hold, rowCount_of_notMem hold]
        rfl
    · have hold : exchange ∈ venues rows := by
        obtain ⟨a, ha, rfl⟩ := mem_venues.mp hmem
        rcases List.mem_append.mp ha with ha | ha
        · exact mem_venues.mpr ⟨a, ha, rfl⟩
        · exact absurd (by rw [List.mem_singleton.mp ha]) heq
      have hrow : row.exchange ∈ venues (rows ++ [row]) := mem_venues.mpr ⟨row, by simp, rfl⟩
      have hvid : venueId (rows ++ [row]) exchange ≠ venueId (rows ++ [row]) row.exchange :=
        fun h => heq (venueId_inj hfew hmem hrow h).symm
      rw [hadded.counters _ hvid, venueId_concat row hold, ih hfew' hold,
        rowCount_concat_ne rows heq]

theorem length_venues_take_le (rows : List StreamRow) (n : ℕ) :
    (venues (rows.take n)).length ≤ (venues rows).length := by
  rw [venues, venues]
  conv_rhs => rw [← List.take_append_drop n rows, List.map_append, List.eraseDups_append]
  rw [List.length_append]
  omega

/-- The rows of the exchange before the last row of the instrument. -/
def venueIndex (rows : List StreamRow) (row : StreamRow) : ℕ :=
  rowCount (rows.take (lastIdxOf rows row)) row.exchange

/-- The number of an instrument is the position of its last row among the rows of its exchange. -/
theorem symbolNumber_eq {rows : List StreamRow} (hfew : (venues rows).length ≤ 65536)
    (row : StreamRow) : symbolNumber rows row = UInt16.ofNat (venueIndex rows row) := by
  have hfew' := (length_venues_take_le rows (lastIdxOf rows row)).trans hfew
  unfold symbolNumber symbolBase venueIndex
  by_cases hmem : row.exchange ∈ venues (rows.take (lastIdxOf rows row))
  · rw [if_pos hmem, nextSymbolIdx_ofRows hfew' hmem]
  · rw [if_neg hmem, rowCount_of_notMem hmem]
    rfl

end VenueRegistry

/-! ### The books -/

open VenueRegistry

variable {M : ℕ}

/-- The position of the last registration of an id, in 16 bits. -/
theorem OrderBookManager.idToIndex_of_mem {ids : List UInt32} {id : UInt32} (hid : id ∈ ids) :
    (registered ids : OrderBookManager M).idToIndex id =
      some (UInt16.ofNat (lastIdxOf ids id)) := by
  induction ids using List.reverseRecOn with
  | nil => exact absurd hid (by simp)
  | append_singleton ids last ih =>
    rw [registered_concat]
    simp only [registerInstrument, orderBooks_registered, List.length_replicate]
    by_cases heq : last = id
    · rw [heq, Function.update_self, lastIdxOf_concat_self]
    · have hmem := mem_of_mem_concat hid heq
      rw [Function.update_of_ne (Ne.symm heq), ih hmem, lastIdxOf_concat_ne hmem heq]

/-- The registry and the books as `main` sets them up. -/
def startup (rows : List StreamRow) : Except LookupError (VenueRegistry × OrderBookManager M) := do
  let registry := VenueRegistry.ofRows rows
  let obm ← rows.foldlM (fun (obm : OrderBookManager M) row => do
    let id ← registry.lookup row.exchange row.symbol
    return obm.registerInstrument id) {}
  return (registry, obm)

/-- The id of a row; `lookup` finds it for every row. -/
def idOf (rows : List StreamRow) (row : StreamRow) : UInt32 :=
  ((ofRows rows).instrumentMap.lookup row.key).getD 0

theorem lookup_row {rows : List StreamRow} {row : StreamRow} (hrow : row ∈ rows) :
    (ofRows rows).lookup row.exchange row.symbol = .ok (idOf rows row) := by
  have hmem : row.key ∈ (ofRows rows).instrumentMap := mem_instrumentMap.mpr ⟨row, hrow, rfl⟩
  obtain ⟨id, hid⟩ := Option.isSome_iff_exists.mp (AList.lookup_isSome.mpr hmem)
  unfold VenueRegistry.lookup idOf
  rw [hid, show key row.exchange row.symbol = row.key from rfl, hid]
  rfl

theorem registerRows {rows : List StreamRow} {registry : VenueRegistry} {f : StreamRow → UInt32}
    (hlookup : ∀ row ∈ rows, registry.lookup row.exchange row.symbol = .ok (f row))
    (obm : OrderBookManager M) :
    (rows.foldlM (fun (obm : OrderBookManager M) row => do
      let id ← registry.lookup row.exchange row.symbol
      return obm.registerInstrument id) obm : Except LookupError _) =
        .ok ((rows.map f).foldl OrderBookManager.registerInstrument obm) := by
  induction rows generalizing obm with
  | nil => rfl
  | cons row rows ih =>
    obtain ⟨hrow, hrows⟩ := List.forall_mem_cons.mp hlookup
    rw [List.foldlM_cons, hrow]
    exact ih hrows _

/-- The startup never throws. -/
theorem startup_eq (rows : List StreamRow) :
    (startup rows : Except LookupError (VenueRegistry × OrderBookManager M)) =
      .ok (ofRows rows, .registered (rows.map (idOf rows))) := by
  unfold startup
  dsimp only
  rw [registerRows (fun row hrow => lookup_row hrow)]
  rfl

/-! ### Unambiguous instruments -/

/-- Every instrument has an id and a book of its own, ids show the venue, and nothing else is
found. The position in the vector says which book it is. -/
structure Unambiguous (rows : List StreamRow) (registry : VenueRegistry)
    (obm : OrderBookManager M) : Prop where
  found : ∀ a ∈ rows, ∃ id i, registry.lookup a.exchange a.symbol = .ok id ∧
    obm.idToIndex id = some i ∧ i.toNat < obm.orderBooks.length
  distinct : ∀ a ∈ rows, ∀ b ∈ rows, a ≠ b → ∀ ida idb,
    registry.lookup a.exchange a.symbol = .ok ida → registry.lookup b.exchange b.symbol = .ok idb →
    ida ≠ idb ∧ obm.idToIndex ida ≠ obm.idToIndex idb
  shared : ∀ a ∈ rows, ∀ b ∈ rows, a = b → ∀ ida idb,
    registry.lookup a.exchange a.symbol = .ok ida → registry.lookup b.exchange b.symbol = .ok idb →
    ida = idb ∧ obm.idToIndex ida = obm.idToIndex idb
  venue : ∀ a ∈ rows, ∀ b ∈ rows, ∀ ida idb,
    registry.lookup a.exchange a.symbol = .ok ida → registry.lookup b.exchange b.symbol = .ok idb →
    (venueOf ida = venueOf idb ↔ a.exchange = b.exchange)
  unknown : ∀ exchange symbol, ⟨exchange, symbol⟩ ∉ rows →
    ∃ e, registry.lookup exchange symbol = .error e

/-- What the rows must be like. -/
structure Separable (rows : List StreamRow) : Prop where
  noSeparator : NoSeparator rows
  fewVenues : (venues rows).length ≤ 65536
  symbols : ∀ a ∈ rows, ∀ b ∈ rows, a ≠ b → a.exchange = b.exchange →
    venueIndex rows a % 65536 ≠ venueIndex rows b % 65536
  books : ∀ a ∈ rows, ∀ b ∈ rows, a ≠ b → lastIdxOf rows a % 65536 ≠ lastIdxOf rows b % 65536

theorem ofNat_inj_iff (m n : ℕ) : UInt16.ofNat m = UInt16.ofNat n ↔ m % 65536 = n % 65536 := by
  rw [← UInt16.toNat_inj, UInt16.toNat_ofNat', UInt16.toNat_ofNat']

section

variable {rows : List StreamRow}

theorem idOf_eq (h : NoSeparator rows) {row : StreamRow} (hrow : row ∈ rows) :
    idOf rows row = pack (venueId rows row.exchange) (symbolNumber rows row) := by
  rw [idOf, lookup_instrument h hrow]
  rfl

theorem venueOf_idOf (h : NoSeparator rows) {row : StreamRow} (hrow : row ∈ rows) :
    venueOf (idOf rows row) = venueId rows row.exchange := by
  rw [idOf_eq h hrow, venueOf_pack]

/-- With ids of their own the instruments have the books of their last rows. -/
theorem idToIndex_idOf (hinj : ∀ a ∈ rows, ∀ b ∈ rows, idOf rows a = idOf rows b → a = b)
    {row : StreamRow} (hrow : row ∈ rows) :
    (.registered (rows.map (idOf rows)) : OrderBookManager M).idToIndex (idOf rows row) =
      some (UInt16.ofNat (lastIdxOf rows row)) := by
  rw [OrderBookManager.idToIndex_of_mem (List.mem_map_of_mem hrow),
    lastIdxOf_map hrow (fun b hb => hinj b hb row hrow)]

theorem found_row {row : StreamRow} (hrow : row ∈ rows) :
    ∃ id i, (ofRows rows).lookup row.exchange row.symbol = .ok id ∧
      (.registered (rows.map (idOf rows)) : OrderBookManager M).idToIndex id = some i ∧
      i.toNat < (.registered (rows.map (idOf rows)) : OrderBookManager M).orderBooks.length := by
  have hmem : idOf rows row ∈ rows.map (idOf rows) := List.mem_map_of_mem hrow
  have hlt := lastIdxOf_lt_length hmem
  refine ⟨_, _, lookup_row hrow, OrderBookManager.idToIndex_of_mem hmem, ?_⟩
  rw [OrderBookManager.orderBooks_registered, List.length_replicate, UInt16.toNat_ofNat']
  exact lt_of_le_of_lt (Nat.mod_le _ _) hlt

/-! ### Necessity -/

/-- No other pair of names may have the key of a row. -/
theorem Unambiguous.key_inj {obm : OrderBookManager M} (h : Unambiguous rows (ofRows rows) obm)
    {row : StreamRow} (hrow : row ∈ rows) {exchange symbol : List UInt8}
    (hkey : key exchange symbol = row.key) : row = ⟨exchange, symbol⟩ := by
  by_contra hne
  have hlookup : (ofRows rows).lookup exchange symbol = .ok (idOf rows row) := by
    rw [← lookup_row hrow, VenueRegistry.lookup, VenueRegistry.lookup, hkey]
    rfl
  by_cases hmem : ⟨exchange, symbol⟩ ∈ rows
  · obtain ⟨hids, -⟩ := h.distinct row hrow _ hmem hne _ _ (lookup_row hrow) hlookup
    exact hids rfl
  · obtain ⟨e, he⟩ := h.unknown exchange symbol hmem
    rw [hlookup] at he
    cases he

theorem Unambiguous.noSeparator {obm : OrderBookManager M}
    (h : Unambiguous rows (ofRows rows) obm) : NoSeparator rows := by
  intro row hrow
  constructor
  · intro hmem
    obtain ⟨x, y, hsplit⟩ := List.append_of_mem hmem
    have hkey : key x (y ++ 58 :: row.symbol) = row.key := by
      rw [StreamRow.key, key, key, hsplit]
      simp
    have hexchange := congrArg (fun r => r.exchange.length) (h.key_inj hrow hkey)
    rw [hsplit] at hexchange
    simp at hexchange
  · intro hmem
    obtain ⟨x, y, hsplit⟩ := List.append_of_mem hmem
    have hkey : key (row.exchange ++ 58 :: x) y = row.key := by
      rw [StreamRow.key, key, key, hsplit]
      simp
    have hexchange := congrArg (fun r => r.exchange.length) (h.key_inj hrow hkey)
    simp at hexchange

theorem Unambiguous.fewVenues {obm : OrderBookManager M}
    (h : Unambiguous rows (ofRows rows) obm) : (venues rows).length ≤ 65536 := by
  have hseparator := h.noSeparator
  have hinj : ∀ e ∈ venues rows, ∀ e' ∈ venues rows,
      (venueId rows e).toFin = (venueId rows e').toFin → e = e' := by
    intro e he e' he' heq
    obtain ⟨a, ha, rfl⟩ := mem_venues.mp he
    obtain ⟨b, hb, rfl⟩ := mem_venues.mp he'
    refine (h.venue a ha b hb _ _ (lookup_row ha) (lookup_row hb)).mp ?_
    rw [venueOf_idOf hseparator ha, venueOf_idOf hseparator hb]
    exact UInt16.toFin_inj.mp heq
  have hnodup : ((venues rows).map (fun e => (venueId rows e).toFin)).Nodup :=
    (nodup_eraseDups _).map_on hinj
  have hcard := hnodup.length_le_card
  rw [List.length_map, Fintype.card_fin] at hcard
  exact hcard

/-- Unambiguous instruments come from separable rows. -/
theorem Unambiguous.separable
    (h : Unambiguous rows (ofRows rows)
      (.registered (rows.map (idOf rows)) : OrderBookManager M)) : Separable rows := by
  have hinj : ∀ a ∈ rows, ∀ b ∈ rows, idOf rows a = idOf rows b → a = b := by
    intro a ha b hb hid
    by_contra hne
    exact (h.distinct a ha b hb hne _ _ (lookup_row ha) (lookup_row hb)).1 hid
  refine ⟨h.noSeparator, h.fewVenues, ?_, ?_⟩
  · intro a ha b hb hne hexchange
    have hids := (h.distinct a ha b hb hne _ _ (lookup_row ha) (lookup_row hb)).1
    rw [idOf_eq h.noSeparator ha, idOf_eq h.noSeparator hb, hexchange, ne_eq, pack_inj,
      symbolNumber_eq h.fewVenues, symbolNumber_eq h.fewVenues, ofNat_inj_iff] at hids
    exact hids
  · intro a ha b hb hne
    have hbooks := (h.distinct a ha b hb hne _ _ (lookup_row ha) (lookup_row hb)).2
    rw [idToIndex_idOf hinj ha, idToIndex_idOf hinj hb, ne_eq, Option.some_inj,
      ofNat_inj_iff] at hbooks
    exact hbooks

/-! ### Sufficiency -/

theorem Separable.idOf_inj (h : Separable rows) :
    ∀ a ∈ rows, ∀ b ∈ rows, idOf rows a = idOf rows b → a = b := by
  intro a ha b hb hid
  by_contra hne
  have hvenue := congrArg venueOf hid
  rw [venueOf_idOf h.noSeparator ha, venueOf_idOf h.noSeparator hb] at hvenue
  have hexchange := venueId_inj h.fewVenues (mem_venues.mpr ⟨a, ha, rfl⟩)
    (mem_venues.mpr ⟨b, hb, rfl⟩) hvenue
  rw [idOf_eq h.noSeparator ha, idOf_eq h.noSeparator hb, hexchange, pack_inj,
    symbolNumber_eq h.fewVenues, symbolNumber_eq h.fewVenues, ofNat_inj_iff] at hid
  exact h.symbols a ha b hb hne hexchange hid

theorem venueIndex_le (rows : List StreamRow) (row : StreamRow) :
    venueIndex rows row ≤ lastIdxOf rows row := by
  unfold venueIndex rowCount
  refine List.count_le_length.trans ?_
  rw [List.length_map]
  exact List.length_take_le _ _

/-- Of two instruments of one exchange the one with the earlier last row has the lower index. -/
theorem venueIndex_lt {a b : StreamRow} (ha : a ∈ rows) (hexchange : a.exchange = b.exchange)
    (h : lastIdxOf rows a < lastIdxOf rows b) : venueIndex rows a < venueIndex rows b := by
  have htake : rows.take (lastIdxOf rows a + 1) = rows.take (lastIdxOf rows a) ++ [a] := by
    rw [List.take_add_one, getElem?_lastIdxOf ha]
    rfl
  have hmono : rowCount (rows.take (lastIdxOf rows a + 1)) b.exchange ≤ venueIndex rows b :=
    ((List.take_sublist_take_left h).map StreamRow.exchange).count_le _
  rw [htake, ← hexchange, rowCount_concat_self] at hmono
  exact hmono

/-- Rows that fit the counters are separable. -/
theorem Separable.of_length (hseparator : NoSeparator rows) (hlength : rows.length ≤ 65536) :
    Separable rows := by
  refine ⟨hseparator, ?_, ?_, ?_⟩
  · have hle := ((nodup_eraseDups (rows.map StreamRow.exchange)).subperm
      (fun _ => List.mem_eraseDups.mp)).length_le
    rw [List.length_map] at hle
    exact hle.trans hlength
  · intro a ha b hb hne hexchange
    have hlt := (venueIndex_le rows a).trans_lt (lastIdxOf_lt_length ha)
    have hlt' := (venueIndex_le rows b).trans_lt (lastIdxOf_lt_length hb)
    rw [Nat.mod_eq_of_lt (by omega), Nat.mod_eq_of_lt (by omega)]
    rcases lt_trichotomy (lastIdxOf rows a) (lastIdxOf rows b) with h | h | h
    · exact (venueIndex_lt ha hexchange h).ne
    · exact absurd (lastIdxOf_inj ha hb h) hne
    · exact (venueIndex_lt hb hexchange.symm h).ne'
  · intro a ha b hb hne
    have hlt := lastIdxOf_lt_length ha
    have hlt' := lastIdxOf_lt_length hb
    rw [Nat.mod_eq_of_lt (by omega), Nat.mod_eq_of_lt (by omega)]
    exact fun heq => hne (lastIdxOf_inj ha hb heq)

/-- Separable rows have unambiguous instruments. -/
theorem Separable.unambiguous (h : Separable rows) :
    Unambiguous rows (ofRows rows)
      (.registered (rows.map (idOf rows)) : OrderBookManager M) := by
  have hinj := h.idOf_inj
  have hid : ∀ a ∈ rows, ∀ ida, (ofRows rows).lookup a.exchange a.symbol = .ok ida →
      ida = idOf rows a := by
    intro a ha ida hida
    rw [lookup_row ha] at hida
    exact (Except.ok.inj hida).symm
  refine ⟨fun a ha => found_row ha, ?_, ?_, ?_, ?_⟩
  · intro a ha b hb hne ida idb hida hidb
    rw [hid a ha ida hida, hid b hb idb hidb, idToIndex_idOf hinj ha, idToIndex_idOf hinj hb,
      ne_eq (some _), Option.some_inj, ofNat_inj_iff]
    exact ⟨fun heq => hne (hinj a ha b hb heq), h.books a ha b hb hne⟩
  · rintro a ha b hb rfl ida idb hida hidb
    rw [hid a ha ida hida, hid a hb idb hidb]
    exact ⟨rfl, rfl⟩
  · intro a ha b hb ida idb hida hidb
    rw [hid a ha ida hida, hid b hb idb hidb, venueOf_idOf h.noSeparator ha,
      venueOf_idOf h.noSeparator hb]
    constructor
    · exact venueId_inj h.fewVenues (mem_venues.mpr ⟨a, ha, rfl⟩) (mem_venues.mpr ⟨b, hb, rfl⟩)
    · exact congrArg (venueId rows)
  · intro exchange symbol hmem
    have hnone : key exchange symbol ∉ (ofRows rows).instrumentMap := by
      intro hfound
      obtain ⟨row, hrow, hkey⟩ := mem_instrumentMap.mp hfound
      have hsep := h.noSeparator row hrow
      rw [StreamRow.key_inj hsep.1 hsep.2 hkey.symm] at hrow
      exact hmem hrow
    rw [VenueRegistry.lookup, AList.lookup_eq_none.mpr hnone]
    exact ⟨_, rfl⟩

end

/-- After every startup the instruments are unambiguous exactly when the rows are separable. -/
theorem unambiguous_iff (rows : List StreamRow) :
    ∃ registry obm, (startup rows : Except LookupError (VenueRegistry × OrderBookManager M)) =
        .ok (registry, obm) ∧
      (Unambiguous rows registry obm ↔ Separable rows) :=
  ⟨_, _, startup_eq rows, Unambiguous.separable, Separable.unambiguous⟩

/-- Exchange A with the symbol B:C, and exchange A:B with the symbol C. -/
def collidingRows : List StreamRow := [⟨[65], [66, 58, 67]⟩, ⟨[65, 58, 66], [67]⟩]

/-- Both rows have the key A:B:C, and the second has taken the id of the first. -/
theorem collidingRows_ambiguous :
    ∃ registry obm, (startup collidingRows :
        Except LookupError (VenueRegistry × OrderBookManager 8192)) = .ok (registry, obm) ∧
      registry.lookup [65] [66, 58, 67] = .ok 65536 ∧
      registry.lookup [65, 58, 66] [67] = .ok 65536 ∧
      ¬ Unambiguous collidingRows registry obm := by
  refine ⟨_, _, startup_eq collidingRows, rfl, rfl, ?_⟩
  intro h
  obtain ⟨hexchange, -⟩ := h.noSeparator ⟨[65, 58, 66], [67]⟩ (by simp [collidingRows])
  exact hexchange (by decide)

end HftSystem
