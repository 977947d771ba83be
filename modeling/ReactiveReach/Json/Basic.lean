import ReactiveReach.Json.Numeral

/-!
# JSON values

A JSON value as far as readers of this library can tell values apart. Objects keep their members
in order, repetitions included. A string that no text can hold, because an escape in it leaves half
of a surrogate pair, is kept as such, so that it can be skipped. The same stands for arrays and
objects that are nested too deep for a reader.
-/

namespace ReactiveReach

inductive Json where
  | null
  | bool (value : Bool)
  /-- A number written with digits alone. -/
  | natural (value : Nat)
  | otherNumber (number : Json.OtherNumber)
  /-- A string, or `none` for what can be skipped but not read. -/
  | text (content : Option String)
  | array (items : List Json)
  | object (members : List (Option String × Json))

namespace Json

/-- The string with this content. -/
def ofString (content : String) : Json := .text (some content)

def ofStrings (contents : List String) : Json := .array (contents.map ofString)

/-- An object from its members in order. -/
def ofMembers (members : List (String × Json)) : Json :=
  .object (members.map fun (name, value) => (some name, value))

/-- The value as far as a reader gets that has so many levels of arrays and objects left. It cannot
open an array or object at the next level, but it can skip one. -/
def within : Nat → Json → Json
  | 0, array _ | 0, object _ => text none
  | levels + 1, array items => array (items.map (within levels))
  | levels + 1, object members =>
    object (members.map fun (name, value) => (name, within levels value))
  | _, json => json

def string? : Json → Option String
  | text content => content
  | _ => none

def bool? : Json → Option Bool
  | bool value => some value
  | _ => none

/-- A natural number below `limit`. -/
def natural? (limit : Nat) : Json → Option Nat
  | natural value => if value < limit then some value else none
  | _ => none

def items? : Json → Option (List Json)
  | array items => some items
  | _ => none

/-- The members of an object all of whose names are texts. -/
def members? : Json → Option (List (String × Json))
  | object members => members.mapM fun (name, value) => name.map (·, value)
  | _ => none

/-- An array of values that are all read in the same way. -/
def list? {α : Type} (read : Json → Option α) (json : Json) : Option (List α) := do
  (← json.items?).mapM read

def valuesOf (name : String) (members : List (String × Json)) : List Json :=
  members.filterMap fun (other, value) => if other == name then some value else none

def only? (name : String) (members : List (String × Json)) : Option Json :=
  match valuesOf name members with
  | [value] => some value
  | _ => none

/-- The fields of a record, in the order of `names`: an object in which each name occurs exactly
once, beside any other members, or an array of exactly the fields. -/
def record? (names : List String) : Json → Option (List Json)
  | array items => if items.length = names.length then some items else none
  | json => do
    let members ← json.members?
    names.mapM (only? · members)

/-- A choice between alternatives: the name of one, written alone or as the only member of an
object that holds its content. -/
def choice? : Json → Option (String × Option Json)
  | text (some name) => some (name, none)
  | object [(some name, content)] => some (name, some content)
  | _ => none

/-- Whether an alternative without content is written as such: its name alone, or with `null`. -/
def isBare : Option Json → Bool
  | none | some null => true
  | _ => false

end Json

/-- Types that have a JSON form, and how it is read. -/
class JsonForm (α : Type) where
  toJson : α → Json
  ofJson? : Json → Option α

export JsonForm (toJson ofJson?)

end ReactiveReach
