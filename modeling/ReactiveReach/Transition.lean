import ReactiveReach.State

/-!
# Transitions, guards, actions and exit zones

A transition leads from one state to another. Its guard is either the proposition that always
holds or a predicate, which the analysis never evaluates: it only asks the assembly for the value
of the predicate and compares predicates for equality. A reactive transition is fired by exit
zones of its source, each naming a sub-machine transition that leads out of the present
configurations into a target predicate.
-/

namespace ReactiveReach

/-- The text that names a sub-machine of an assembly. -/
abbrev SubmachineId := String

/-- The text that names a transition inside a sub-machine. -/
abbrev StepId := String

/-- The text that names an event a sub-machine may receive. -/
abbrev EventId := String

/-- The proposition under which a transition may be taken. -/
inductive Guard (P : Type) where
  | always
  | holds (predicate : P)
  deriving DecidableEq

namespace Guard

variable {P : Type}

instance : Inhabited (Guard P) := ⟨always⟩

def isAlways : Guard P → Bool
  | always => true
  | holds _ => false

def predicate? : Guard P → Option P
  | always => none
  | holds predicate => some predicate

/-- Whether an exit zone that leads into `target` may fire the guard. -/
def admits [BEq P] : Guard P → P → Bool
  | always, _ => true
  | holds predicate, target => predicate == target

end Guard

/-- An event sent to a sub-machine when a transition is taken. -/
structure Action where
  submachine : SubmachineId
  event : EventId
  deriving DecidableEq

/-- A sub-machine transition that leads out of a state's configurations into `target`. -/
structure ExitZone (P : Type) where
  target : P
  submachine : SubmachineId
  step : StepId
  deriving DecidableEq

/-- A transition between two states, given by their ids. -/
structure Transition (P : Type) where
  source : StateId
  target : StateId
  /-- Taken on an external trigger. A transition that is not is fired by exit zones. -/
  triggerable : Bool
  guard : Guard P
  /-- Events sent when the transition is taken, in order. -/
  actions : List Action
  deriving DecidableEq

namespace Transition

variable {P : Type}

/-- An unguarded transition on an external trigger, without actions. -/
def triggered (source target : StateId) : Transition P := ⟨source, target, true, .always, []⟩

/-- An unguarded transition fired by exit zones, without actions. -/
def reactive (source target : StateId) : Transition P := ⟨source, target, false, .always, []⟩

def guarded (transition : Transition P) (guard : Guard P) : Transition P :=
  { transition with guard }

def andThen (transition : Transition P) (action : Action) : Transition P :=
  { transition with actions := transition.actions ++ [action] }

def targets (transition : Transition P) (state : StateId) : Bool := transition.target == state

end Transition
end ReactiveReach
