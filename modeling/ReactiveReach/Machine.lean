import ReactiveReach.Assembly

/-!
# Reactive machines

A machine is a list of states and a list of transitions over an assembly, together with a rule
that gives the exit zones of a state from its present value. The lists are as their author wrote
them: ids may repeat and transitions may mention states that do not exist until `validate` says
otherwise.
-/

namespace ReactiveReach

/-- A reactive state machine with values `V`, predicates `P` and failures `E`. -/
structure Machine (V P E : Type) where
  name : String
  assembly : Assembly V P E
  states : List State
  transitions : List (Transition P)
  /-- The exit zones of a state whose value is known. -/
  exits : State → V → Except E (List (ExitZone P))

namespace Machine

variable {V P E : Type}

def state? (machine : Machine V P E) (id : StateId) : Option State :=
  machine.states.find? (·.id == id)

def knows (machine : Machine V P E) (id : StateId) : Bool := machine.states.any (·.id == id)

def addState (machine : Machine V P E) (state : State) : Machine V P E :=
  { machine with states := machine.states ++ [state] }

def addTransition (machine : Machine V P E) (transition : Transition P) : Machine V P E :=
  { machine with transitions := machine.transitions ++ [transition] }

end Machine
end ReactiveReach
