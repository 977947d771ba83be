import ReactiveReach.Samples.Tabled
import ReactiveReach.Stored.Value

/-!
# Terms

A value is a text that spells out how it was computed, so every operation and its order show. No
law of a lattice holds of terms.
-/

namespace ReactiveReach.Samples

structure Term where
  text : String
  deriving DecidableEq

namespace Term

/-- Whether one text occurs inside another. -/
def occursIn (part whole : List Char) : Bool :=
  part.isPrefixOf whole ||
    match whole with
    | [] => false
    | _ :: rest => occursIn part rest

/-- The one term that cannot be stored. -/
def unstorable : Term := ⟨"unencodable"⟩

instance : Storable Term where
  valueToJson? term := if term = unstorable then none else some (.ofString term.text)
  valueOfJson? json := json.string?.map Term.mk
  valueToBytes? term := if term = unstorable then none else Bytes.text? term.text
  readValue := Term.mk <$> Bytes.readText

end Term

/-- Terms as values, texts as predicates and as the names of steps. -/
def terms : Carrier Term String String where
  bottom id := ⟨"0" ++ id⟩
  top := ⟨"1"⟩
  meet a b := ⟨"(" ++ a.text ++ "&" ++ b.text ++ ")"⟩
  join a b := ⟨"(" ++ a.text ++ "|" ++ b.text ++ ")"⟩
  apply step term := ⟨step ++ "<" ++ term.text ++ ">"⟩
  meaning predicate := ⟨"?" ++ predicate⟩
  meets a b := Term.occursIn b.text.toList a.text.toList

/-- A sub-machine with one transition. -/
def stepper : Tables Term String String where
  id := "stepper"
  initial := some ⟨"start"⟩
  top := none
  predicates := []
  transitions := [(("stepper", "step"), "step")]
  events := []

/-- A machine with two ways from the seed to its first state. Exit zones are given by ids. -/
def fork : Machine Term String (TableError String) where
  name := "fork"
  assembly := stepper.assembly terms
  states := [.ordinary "B", .seed "Seed", .ordinary "A"]
  transitions := [.triggered "Seed" "A", .reactive "A" "B", .triggered "Seed" "B"]
  exits := ZoneRule.exits terms.meets [⟨none, some ["A"], none, .exit ⟨"on", "stepper", "step"⟩⟩]

/-- The fork with ids in the opposite order. -/
def turnedFork : Machine Term String (TableError String) where
  name := "fork"
  assembly := stepper.assembly terms
  states := [.ordinary "B", ⟨"A", "Seed", true⟩, ⟨"Seed", "A", false⟩]
  transitions := [.triggered "A" "Seed", .reactive "Seed" "B", .triggered "A" "B"]
  exits := ZoneRule.exits terms.meets
    [⟨none, some ["Seed"], none, .exit ⟨"on", "stepper", "step"⟩⟩]

end ReactiveReach.Samples
