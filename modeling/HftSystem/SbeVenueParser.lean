import HftSystem.SbeDecoder

/-!
The parser of one frame payload: a loop over the messages in it that looks up the
schema of each and decodes or skips it. Each decoded message takes one reading of
the time stamp counter.
-/
namespace HftSystem

open ByteWords SbeDecoder

structure SBEVenueParser where
  schemas : SchemaRegistry
  registry : VenueRegistry
  venueName : List UInt8

namespace SBEVenueParser

/-- The bytes consumed, or 0, and the updates enqueued. -/
def handle (p : SBEVenueParser) (schema : MessageSchema) (msg : List UInt8) (recvTsc : UInt64) :
    ℕ × List MarketUpdate :=
  if schema.skip then (SbeDecoder.measure msg schema, [])
  else decode msg schema p.registry p.venueName recvTsc

/-- The readings of the time stamp counter that are left after a message. -/
def tscAfter (schema : MessageSchema) (tsc : ℕ → UInt64) : ℕ → UInt64 :=
  if schema.skip then tsc else fun n => tsc (n + 1)

/-- The loop from a cursor on: the updates that it enqueues. -/
def parseFrom (p : SBEVenueParser) (payload : List UInt8) (tsc : ℕ → UInt64) (cursor : ℕ) :
    List MarketUpdate :=
  if cursor < payload.length then
    if cursor + 4 > payload.length then []
    else
      match p.schemas.lookup (UInt16.ofNat (readLe 2 payload (cursor + 2))) with
      | none => []
      | some schema =>
        let result := p.handle schema (payload.drop cursor) (tsc 0)
        if result.1 = 0 then result.2
        else result.2 ++ p.parseFrom payload (tscAfter schema tsc) (cursor + result.1)
  else []
termination_by payload.length - cursor
decreasing_by exact Nat.sub_lt_sub_left ‹_› (Nat.lt_add_of_pos_right (Nat.pos_of_ne_zero ‹_›))

def parse (p : SBEVenueParser) (tsc : ℕ → UInt64) (payload : List UInt8) : List MarketUpdate :=
  p.parseFrom payload tsc 0

/-- The loop sees only the bytes from its cursor on. -/
theorem parseFrom_eq_parse_drop (p : SBEVenueParser) (payload : List UInt8) (tsc : ℕ → UInt64)
    (cursor : ℕ) : p.parseFrom payload tsc cursor = p.parse tsc (payload.drop cursor) := by
  unfold parse
  induction hn : payload.length - cursor using Nat.strong_induction_on
    generalizing payload tsc cursor with
  | _ n ih =>
    rw [parseFrom, parseFrom, List.length_drop, List.drop_zero, readLe_drop]
    by_cases hcursor : cursor < payload.length
    · rw [if_pos hcursor, if_pos (show 0 < payload.length - cursor by omega)]
      by_cases hshort : cursor + 4 > payload.length
      · rw [if_pos hshort, if_pos (show 0 + 4 > payload.length - cursor by omega)]
      · rw [if_neg hshort, if_neg (show ¬ 0 + 4 > payload.length - cursor by omega), Nat.zero_add]
        cases p.schemas.lookup (UInt16.ofNat (readLe 2 payload (cursor + 2))) with
        | none => rfl
        | some schema =>
          dsimp only
          by_cases hzero : (p.handle schema (payload.drop cursor) (tsc 0)).1 = 0
          · rw [if_pos hzero, if_pos hzero]
          · rw [if_neg hzero, if_neg hzero, ih _ (by omega) payload _ _ rfl,
              ih _ (by rw [List.length_drop]; omega) (payload.drop cursor) _ _ rfl,
              List.drop_drop, Nat.zero_add]
    · rw [if_neg hcursor, if_neg (show ¬ 0 < payload.length - cursor by omega)]

/-- One turn of the loop at the start of a message that is consumed. -/
theorem parse_message {p : SBEVenueParser} {schema : MessageSchema} {msg rest : List UInt8}
    {tsc : ℕ → UInt64} {us : List MarketUpdate} (hlength : 4 ≤ msg.length)
    (hschema : p.schemas.lookup (UInt16.ofNat (readLe 2 (msg ++ rest) 2)) = some schema)
    (hhandle : p.handle schema (msg ++ rest) (tsc 0) = (msg.length, us)) :
    p.parse tsc (msg ++ rest) = us ++ p.parse (tscAfter schema tsc) rest := by
  have hpos : 0 < (msg ++ rest).length := by
    rw [List.length_append]
    omega
  rw [parse, parseFrom, if_pos hpos, if_neg (by rw [List.length_append]; omega), Nat.zero_add,
    hschema]
  simp only [List.drop_zero, hhandle]
  rw [if_neg (by omega), parseFrom_eq_parse_drop, Nat.zero_add, List.drop_left]

/-- The loop ends where no template id is left. -/
theorem parse_short {p : SBEVenueParser} {payload : List UInt8} (hlength : payload.length < 4)
    (tsc : ℕ → UInt64) : p.parse tsc payload = [] := by
  rw [parse, parseFrom, if_pos (show 0 + 4 > payload.length by omega), ite_self]

/-- The loop ends at a message that is not consumed. -/
theorem parse_stop {p : SBEVenueParser} {schema : MessageSchema} {payload : List UInt8}
    {tsc : ℕ → UInt64} {us : List MarketUpdate} (hlength : 4 ≤ payload.length)
    (hschema : p.schemas.lookup (UInt16.ofNat (readLe 2 payload 2)) = some schema)
    (hhandle : p.handle schema payload (tsc 0) = (0, us)) : p.parse tsc payload = us := by
  rw [parse, parseFrom, if_pos (by omega), if_neg (by omega), Nat.zero_add, hschema]
  simp only [List.drop_zero, hhandle]
  rw [if_pos trivial]

end SBEVenueParser

end HftSystem
