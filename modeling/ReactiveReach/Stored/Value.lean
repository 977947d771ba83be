import ReactiveReach.Json.Basic
import ReactiveReach.Stored.Bytes

/-!
# Values that can be stored

A checkpoint can be stored if its values can: as JSON and as bytes. Storing a value may fail.
-/

namespace ReactiveReach

/-- How values of a type are stored and read back. -/
class Storable (V : Type) where
  valueToJson? : V → Option Json
  valueOfJson? : Json → Option V
  valueToBytes? : V → Option (List UInt8)
  readValue : Bytes.Reader V

export Storable (valueToJson? valueOfJson? valueToBytes? readValue)

instance : Storable UInt16 where
  valueToJson? word := some (.natural word.toNat)
  valueOfJson? json := (json.natural? UInt16.size).map .ofNat
  valueToBytes? value := some (Bytes.word 2 value.toNat)
  readValue := .ofNat <$> Bytes.readWord 2

instance : Storable UInt32 where
  valueToJson? word := some (.natural word.toNat)
  valueOfJson? json := (json.natural? UInt32.size).map .ofNat
  valueToBytes? value := some (Bytes.word 4 value.toNat)
  readValue := .ofNat <$> Bytes.readWord 4

instance : Storable UInt64 where
  valueToJson? word := some (.natural word.toNat)
  valueOfJson? json := (json.natural? UInt64.size).map .ofNat
  valueToBytes? value := some (Bytes.word 8 value.toNat)
  readValue := .ofNat <$> Bytes.readWord 8

end ReactiveReach
