import ReactiveReach.Checkpoint
import ReactiveReach.Json.Printer
import ReactiveReach.Json.Reader
import ReactiveReach.Stored.Value

/-!
# Stored checkpoints

A checkpoint is stored as indented JSON text or as bytes. Either form is read as a whole before its
version is looked at, so a checkpoint of another version is told apart from a damaged one.
-/

namespace ReactiveReach.Checkpoint

variable {V : Type} [Storable V]

/-- The member of a JSON object for the value of a state. -/
def entryToJson? (entry : StateId × V) : Option (String × Json) := do
  return (entry.1, ← valueToJson? entry.2)

def entryOfJson? (member : String × Json) : Option (StateId × V) := do
  return (member.1, ← valueOfJson? member.2)

/-- The JSON form of some values, unless one of them has none. -/
def valuesToJson? (semantics : StateMap V) : Option Json := do
  return .ofMembers (← semantics.toList.mapM entryToJson?)

/-- Reads the values of states. Of entries for one state the last counts. -/
def valuesOfJson? (json : Json) : Option (StateMap V) := do
  return .ofList (← (← json.members?).mapM entryOfJson?)

/-- The JSON form of a checkpoint, unless one of its values has none. -/
def toJson? (checkpoint : Checkpoint V) : Option Json := do
  return .ofMembers
    [("version", .natural checkpoint.version.toNat), ("id", .ofString checkpoint.id),
      ("created_at", .ofString checkpoint.createdAt.text),
      ("machine", .ofString checkpoint.machine),
      ("iterations", .natural checkpoint.iterations.toNat),
      ("semantics", ← valuesToJson? checkpoint.semantics)]

/-- Reads a checkpoint of any version. -/
def ofJson? (json : Json) : Option (Checkpoint V) := do
  match ← json.record? ["version", "id", "created_at", "machine", "iterations", "semantics"] with
  | [version, id, createdAt, machine, iterations, semantics] =>
    return {
      version := .ofNat (← version.natural? UInt32.size)
      id := ← id.string?
      createdAt := ← Instant.ofText? (← createdAt.string?)
      machine := ← machine.string?
      iterations := .ofNat (← iterations.natural? UInt64.size)
      semantics := ← valuesOfJson? semantics }
  | _ => none

def toText (checkpoint : Checkpoint V) : Except CheckpointError String :=
  match checkpoint.toJson? with
  | some json => .ok json.indented
  | none => .error (.unwritable "a value has no JSON form")

def ofText (text : String) : Except CheckpointError (Checkpoint V) :=
  match Json.parse? text >>= ofJson? with
  | some checkpoint => checkpoint.checkVersion
  | none => .error (.unreadable "the text is no checkpoint")

def entryToBytes? (entry : StateId × V) : Option (List UInt8) := do
  return (← Bytes.text? entry.1) ++ (← valueToBytes? entry.2)

/-- The byte form of some values, unless one of them has none. -/
def valuesToBytes? (semantics : StateMap V) : Option (List UInt8) := do
  Bytes.sequence? (← semantics.toList.mapM entryToBytes?)

/-- The byte form of a checkpoint, unless one of its parts has none. -/
def toBytes? (checkpoint : Checkpoint V) : Option (List UInt8) := do
  return Bytes.word 4 checkpoint.version.toNat ++ (← Bytes.text? checkpoint.id) ++
    (← Bytes.text? checkpoint.createdAt.text) ++ (← Bytes.text? checkpoint.machine) ++
    Bytes.word 8 checkpoint.iterations.toNat ++ (← valuesToBytes? checkpoint.semantics)

/-- Reads the value of a state behind the state's id. -/
def readEntry : Bytes.Reader (StateId × V) := do
  let state ← Bytes.readText
  let value ← readValue
  return (state, value)

/-- Reads the values of states. Of entries for one state the last counts. -/
def readValues : Bytes.Reader (StateMap V) := do
  let entries ← Bytes.readSequence readEntry
  return .ofList entries

/-- Reads an instant, which is kept as text. -/
def readInstant : Bytes.Reader Instant := do
  let text ← Bytes.readText
  Instant.ofText? text

/-- Reads a checkpoint of any version. -/
def read : Bytes.Reader (Checkpoint V) := do
  let version ← Bytes.readWord 4
  let id ← Bytes.readText
  let createdAt ← readInstant
  let machine ← Bytes.readText
  let iterations ← Bytes.readWord 8
  let semantics ← readValues
  return {
    version := .ofNat version
    id
    createdAt
    machine
    iterations := .ofNat iterations
    semantics }

def toBytes (checkpoint : Checkpoint V) : Except CheckpointError (List UInt8) :=
  match checkpoint.toBytes? with
  | some bytes => .ok bytes
  | none => .error (.unwritable "a part has no byte form")

/-- Reads a checkpoint of the current version from the front of some bytes. -/
def ofBytes (bytes : List UInt8) : Except CheckpointError (Checkpoint V) :=
  match read.run bytes with
  | some (checkpoint, _) => checkpoint.checkVersion
  | none => .error (.unreadable "the bytes are no checkpoint")

end ReactiveReach.Checkpoint
