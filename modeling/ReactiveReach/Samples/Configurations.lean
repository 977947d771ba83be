import Std.Data.ExtTreeSet
import ReactiveReach.Samples.Tabled
import ReactiveReach.Stored.Value

/-!
# Sets of configurations

A value is a finite set of configurations, each named by a text. A step of a sub-machine is given
by the configurations that each one leads to.
-/

namespace ReactiveReach.Samples

/-- A finite set of configurations, listed in code point order of their names. -/
structure Configurations where
  members : Std.ExtTreeSet String
  deriving DecidableEq

namespace Configurations

def ofList (names : List String) : Configurations := ⟨.ofList names⟩

def toList (set : Configurations) : List String := set.members.toList

theorem ofList_toList (set : Configurations) : ofList set.toList = set := by
  have same : Std.ExtTreeSet.ofList set.members.toList = set.members :=
    Std.ExtTreeSet.ext_mem fun name => by simp [Std.ExtTreeSet.mem_ofList]
  rw [ofList, toList, same]

def union (a b : Configurations) : Configurations := ⟨a.members ∪ b.members⟩

def inter (a b : Configurations) : Configurations := ⟨a.members ∩ b.members⟩

/-- The text of a set: its members in braces. -/
def describe (set : Configurations) : String :=
  "\x7b" ++ ",".intercalate set.toList ++ "\x7d"

instance : Storable Configurations where
  valueToJson? set := some (.ofStrings set.toList)
  valueOfJson? json := (json.list? Json.string?).map ofList
  valueToBytes? set := do Bytes.sequence? (← set.toList.mapM Bytes.text?)
  readValue := ofList <$> Bytes.readSequence Bytes.readText

end Configurations

/-- Where each configuration leads. One that is not listed stays where it is. -/
abbrev Moves := List (String × List String)

def Moves.next (moves : Moves) (name : String) : List String :=
  (List.lookup name moves).getD [name]

/-- Sets of configurations as values, texts as predicates. -/
def configurations : Carrier Configurations String Moves where
  bottom _ := .ofList []
  top := .ofList []
  meet := .inter
  join := .union
  apply moves set := .ofList (set.toList.flatMap moves.next)
  meaning predicate := .ofList [predicate]
  meets a b := !(a.inter b).toList.isEmpty

end ReactiveReach.Samples
