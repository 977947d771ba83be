import Std.Data.ExtTreeMap

/-!
# States and maps over states

A state is known to the transitions of its machine by its id; its name is for people. Every
quantity that the analysis attaches to states is a finite map ordered by id, so two maps with the
same entries are the same map.
-/

namespace ReactiveReach

/-- The text by which transitions, maps and reports refer to a state. -/
abbrev StateId := String

/-- A finite map from state ids, listed in code point order of the ids. -/
abbrev StateMap (α : Type) := Std.ExtTreeMap StateId α

/-- A control state of a reactive machine. The seed is the state where every run begins. -/
structure State where
  id : StateId
  name : String
  isSeed : Bool
  deriving DecidableEq

namespace State

/-- A state that is not the seed, with its name as id. -/
def ordinary (name : String) : State := ⟨name, name, false⟩

/-- A seed state, with its name as id. -/
def seed (name : String) : State := ⟨name, name, true⟩

def withId (state : State) (id : StateId) : State := { state with id }

end State
end ReactiveReach
