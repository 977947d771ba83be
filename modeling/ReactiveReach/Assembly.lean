import ReactiveReach.Transition

/-!
# Assemblies: the values of states

A value stands for a set of configurations of the sub-machines that an assembly holds. The
assembly supplies the operations on values, and they may fail where a sub-machine knows no such
transition or event. Nothing is assumed here about how the operations relate; the laws of a
lattice are hypotheses of the theorems that need them.
-/

namespace ReactiveReach

/-- Operations on the values `V` of states, for guard predicates `P` and failures `E`. -/
structure Assembly (V P E : Type) where
  id : String
  /-- The value of a state that no run has reached. -/
  bottom : V
  /-- The value of every configuration, which is also that of the guard that always holds. -/
  top : V
  /-- The configurations in both values. -/
  meet : V → V → V
  /-- The configurations in either value. -/
  join : V → V → V
  /-- The image of a value under a transition of a sub-machine. -/
  fire : SubmachineId → StepId → V → Except E V
  /-- The image of a value under an event sent to a sub-machine. -/
  deliver : SubmachineId → EventId → V → Except E V
  /-- The value in which the seed starts. -/
  initial : Except E V
  /-- The configurations in which a predicate holds. -/
  meaning : P → Except E V

namespace Assembly

variable {V P E : Type}

/-- The order of the lattice: `a` is below `b` if joining it to `b` adds nothing. -/
def below [BEq V] (assembly : Assembly V P E) (a b : V) : Bool := assembly.join a b == b

def guardMeaning (assembly : Assembly V P E) : Guard P → Except E V
  | .always => .ok assembly.top
  | .holds predicate => assembly.meaning predicate

/-- The image of a value under the events of some actions, sent one after the other. -/
def deliverAll (assembly : Assembly V P E) (actions : List Action) (value : V) : Except E V :=
  actions.foldlM (fun value action => assembly.deliver action.submachine action.event value) value

/-- The join of the images of `value` under the transitions that the zones name. -/
def fireAll (assembly : Assembly V P E) (zones : List (ExitZone P)) (value : V) : Except E V :=
  zones.foldlM (fun reached zone => do
    return assembly.join reached (← assembly.fire zone.submachine zone.step value)) assembly.bottom

end Assembly
end ReactiveReach
