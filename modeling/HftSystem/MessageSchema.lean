import Mathlib.Data.Nat.Notation
import Mathlib.Logic.Function.Basic

/-!
Descriptions of the binary messages of a venue: where the decoder finds the event
time, the exponents and the prices of a message, how its repeating groups are
counted, and whether the message is skipped.
-/
namespace HftSystem

inductive IntEncoding where
  | int8 | int16 | int32 | int64 | uint8 | uint16 | uint32 | uint64
deriving DecidableEq

inductive TimestampUnit where
  | microseconds | milliseconds | nanoseconds
deriving DecidableEq

inductive GroupNumEncoding where
  | uint16 | uint32
deriving DecidableEq

structure ScaledField where
  offset : ℕ
  rawType : IntEncoding
deriving DecidableEq

structure MessageSchema where
  templateId : UInt16
  fixedBlockSize : ℕ
  eventTimeOffset : ℕ
  eventTimeUnit : TimestampUnit
  priceExpOffset : ℕ
  qtyExpOffset : ℕ
  priceField : ScaledField
  qtyField : ScaledField
  numGroups : ℕ := 2
  groupNumEncoding : GroupNumEncoding := .uint16
  numVardata : ℕ := 1
  skip : Bool := false
deriving DecidableEq

def kBinanceDepthDiff : MessageSchema where
  templateId := 10003
  fixedBlockSize := 26
  eventTimeOffset := 0
  eventTimeUnit := .microseconds
  priceExpOffset := 24
  qtyExpOffset := 25
  priceField := ⟨0, .int64⟩
  qtyField := ⟨8, .int64⟩

def kBinanceDepthSnapshot : MessageSchema where
  templateId := 10002
  fixedBlockSize := 18
  eventTimeOffset := 0
  eventTimeUnit := .microseconds
  priceExpOffset := 16
  qtyExpOffset := 17
  priceField := ⟨0, .int64⟩
  qtyField := ⟨8, .int64⟩

def kBinanceBestBidAsk : MessageSchema where
  templateId := 10001
  fixedBlockSize := 50
  eventTimeOffset := 0
  eventTimeUnit := .microseconds
  priceExpOffset := 16
  qtyExpOffset := 17
  priceField := ⟨0, .int64⟩
  qtyField := ⟨8, .int64⟩
  numGroups := 0
  skip := true

def kBinanceTrades : MessageSchema where
  templateId := 10000
  fixedBlockSize := 18
  eventTimeOffset := 0
  eventTimeUnit := .microseconds
  priceExpOffset := 16
  qtyExpOffset := 17
  priceField := ⟨8, .int64⟩
  qtyField := ⟨16, .int64⟩
  numGroups := 1
  groupNumEncoding := .uint32
  skip := true

/-- The two messages that are decoded. -/
inductive DepthKind where
  | diff
  | snapshot
deriving DecidableEq

def DepthKind.schema : DepthKind → MessageSchema
  | .diff => kBinanceDepthDiff
  | .snapshot => kBinanceDepthSnapshot

structure SchemaRegistry where
  schemas : UInt16 → Option MessageSchema := fun _ => none

namespace SchemaRegistry

def registerSchema (r : SchemaRegistry) (s : MessageSchema) : SchemaRegistry :=
  ⟨Function.update r.schemas s.templateId (some s)⟩

def lookup (r : SchemaRegistry) (templateId : UInt16) : Option MessageSchema := r.schemas templateId

end SchemaRegistry

/-- The registry that `main` fills. -/
def binanceSchemas : SchemaRegistry :=
  [kBinanceDepthDiff, kBinanceDepthSnapshot, kBinanceBestBidAsk, kBinanceTrades].foldl
    SchemaRegistry.registerSchema {}

end HftSystem
