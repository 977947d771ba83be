import ReactiveReach.Checkpoint
import ReactiveReach.Json.Basic
import ReactiveReach.Samples.Configurations
import ReactiveReach.Samples.Term

/-!
# Awkward checkpoints

Names that need escapes or have none, the largest number of passes, and an instant in the second
that is added to the last day of the last year of four digits.
-/

namespace ReactiveReach.Samples

/-- The last nanosecond of the year 9999, in a minute of sixty-one seconds. -/
def lastInstant : Instant where
  date := ⟨9999, 12, 31, by decide, by decide⟩
  time := ⟨23, 59, 60, 999999999, by decide, by decide, by decide, by decide⟩

/-- A checkpoint of some version with names that are hard to write. -/
def snapshot (version : UInt32) : Checkpoint Term where
  version
  id := "\"\\/\x00"
  createdAt := lastInstant
  machine := "kessel\n\u00e9\u2028"
  iterations := .ofNat (UInt64.size - 1)
  semantics := .ofList [("", Term.mk "\t"), ("\x1f", Term.mk "\x7f"), ("a\"b", Term.mk "")]

/-- A checkpoint whose values are sets, one of which is empty. -/
def crowds : Checkpoint Configurations :=
  let values : List (StateId × Configurations) :=
    [("in", .ofList ["b", "", "a"]), ("out", .ofList [])]
  .create "crowds" lastInstant "" 0 (.ofList values)

/-- The members of the JSON form of the checkpoint of version 1. -/
def snapshotFields (semantics : Json) : List (String × Json) :=
  [("version", .natural 1), ("id", .ofString "\"\\/\x00"),
    ("created_at", .ofString "9999-12-31T23:59:60.999999999Z"),
    ("machine", .ofString "kessel\n\u00e9\u2028"),
    ("iterations", .natural (UInt64.size - 1)), ("semantics", semantics)]

/-- The same members in another order, between others that say something else of the fields. -/
def snapshotMembers (semantics : Json) : List (String × Json) :=
  [("iterations", .natural (UInt64.size - 1)), ("Version", .natural 2), ("semantics", semantics),
    ("", .array [.ofMembers [("id", .null), ("version", .natural 2)], .text none]),
    ("machine", .ofString "kessel\n\u00e9\u2028"),
    ("created_at", .ofString "9999-12-31T23:59:60.999999999Z"), ("version", .natural 1),
    ("id", .ofString "\"\\/\x00"), ("notes", .ofString "\"version\":2,")]

/-- The members of the JSON form, and one under a name that is no text. -/
def spoiledMembers (semantics : Json) : List (Option String × Json) :=
  (snapshotFields semantics).map (fun field => (some field.1, field.2)) ++ [(none, .natural 0)]

end ReactiveReach.Samples
