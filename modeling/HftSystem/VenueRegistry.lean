import Mathlib.Data.List.AList
import Mathlib.Logic.Function.Basic

/-!
The registry that maps an exchange and a symbol to a packed instrument id: the
venue index in the upper and the symbol index within the venue in the lower half
of 32 bits. Texts are byte strings.
-/
namespace HftSystem

structure StreamRow where
  exchange : List UInt8
  symbol : List UInt8
deriving DecidableEq

/-- The exception of `lookup`, with the key in its message. -/
inductive LookupError where
  | unknownInstrument (key : List UInt8)
deriving DecidableEq

structure VenueRegistry where
  instrumentMap : AList (fun _ : List UInt8 => UInt32) := ∅
  venueIds : AList (fun _ : List UInt8 => UInt16) := ∅
  nextSymbolIdx : UInt16 → UInt16 := fun _ => 0

namespace VenueRegistry

def pack (venue symbol : UInt16) : UInt32 := (venue.toUInt32 <<< 16) ||| symbol.toUInt32

/-- `exchange + ":" + symbol` -/
def key (exchange symbol : List UInt8) : List UInt8 := exchange ++ 58 :: symbol

def getOrAddVenue (r : VenueRegistry) (exchange : List UInt8) : VenueRegistry × UInt16 :=
  match r.venueIds.lookup exchange with
  | some vid => (r, vid)
  | none =>
    let vid := UInt16.ofNat r.venueIds.entries.length
    ({ r with venueIds := r.venueIds.insert exchange vid
              nextSymbolIdx := Function.update r.nextSymbolIdx vid 0 }, vid)

/-- The loop body of the constructor. -/
def addRow (r : VenueRegistry) (row : StreamRow) : VenueRegistry :=
  let (r, vid) := r.getOrAddVenue row.exchange
  let sid := r.nextSymbolIdx vid
  { r with nextSymbolIdx := Function.update r.nextSymbolIdx vid (sid + 1)
           instrumentMap := r.instrumentMap.insert (key row.exchange row.symbol) (pack vid sid) }

def ofRows (rows : List StreamRow) : VenueRegistry := rows.foldl addRow {}

def lookup (r : VenueRegistry) (exchange symbol : List UInt8) : Except LookupError UInt32 :=
  match r.instrumentMap.lookup (key exchange symbol) with
  | none => .error (.unknownInstrument (key exchange symbol))
  | some id => .ok id

end VenueRegistry

end HftSystem
