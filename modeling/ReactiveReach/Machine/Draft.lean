import ReactiveReach.Machine

/-!
# Drafts of transitions and machines

A draft collects the parts of a transition or of a machine in any order and is finished into one,
unless a part that has no default is still missing. Drafting steps are data as well, so that a
whole sequence of them can be carried out, and the first step that fails be named.
-/

namespace ReactiveReach

variable {V P E : Type}

/-- The part that an unfinished draft still lacks. -/
inductive DraftError where
  | missingAssembly
  | noStates
  | missingSource
  | missingTarget
  deriving DecidableEq

namespace DraftError

def message : DraftError → String
  | missingAssembly => "Assembly not specified. Call .assembly(assembly) before .build()"
  | noStates => "No states defined. Add at least a seed state"
  | missingSource => "Transition source state not specified. Call .from(state)"
  | missingTarget => "Transition target state not specified. Call .to(state)"

end DraftError

/-- The parts of a transition collected so far. -/
structure TransitionDraft (P : Type) where
  source : Option StateId
  target : Option StateId
  triggerable : Bool
  guard : Guard P
  actions : List Action
  deriving DecidableEq

/-- One step in drafting a transition. -/
inductive TransitionStep (P : Type) where
  | from (state : StateId)
  | to (state : StateId)
  | triggerable
  | reactive
  | guard (guard : Guard P)
  | when (predicate : P)
  | action (action : Action)
  deriving DecidableEq

namespace TransitionDraft

/-- The draft that every transition starts from: triggerable and unguarded, without endpoints. -/
def blank : TransitionDraft P := ⟨none, none, true, .always, []⟩

/-- Carries out one step. The last source, target, trigger kind and guard win; actions add up. -/
def apply (draft : TransitionDraft P) : TransitionStep P → TransitionDraft P
  | .from state => { draft with source := some state }
  | .to state => { draft with target := some state }
  | .triggerable => { draft with triggerable := true }
  | .reactive => { draft with triggerable := false }
  | .guard guard => { draft with guard }
  | .when predicate => { draft with guard := .holds predicate }
  | .action action => { draft with actions := draft.actions ++ [action] }

/-- The drafted transition. A missing source is reported before a missing target. -/
def finish (draft : TransitionDraft P) : Except DraftError (Transition P) := do
  let some source := draft.source | throw .missingSource
  let some target := draft.target | throw .missingTarget
  return ⟨source, target, draft.triggerable, draft.guard, draft.actions⟩

end TransitionDraft

/-- The transition that a sequence of drafting steps describes. -/
def Transition.ofSteps (steps : List (TransitionStep P)) : Except DraftError (Transition P) :=
  (steps.foldl TransitionDraft.apply .blank).finish

/-- The parts of a machine collected so far. -/
structure MachineDraft (V P E : Type) where
  name : String
  assembly : Option (Assembly V P E)
  states : List State
  transitions : List (Transition P)
  exits : Option (State → V → Except E (List (ExitZone P)))

/-- One step in drafting a machine. -/
inductive MachineStep (V P E : Type) where
  | name (name : String)
  | assembly (assembly : Assembly V P E)
  /-- Adds a seed of this name. -/
  | seed (name : String)
  /-- Adds an ordinary state of this name. -/
  | ordinary (name : String)
  | state (state : State)
  /-- Adds the transition that the steps describe, which fails if they leave an endpoint out. -/
  | draftTransition (steps : List (TransitionStep P))
  | transition (transition : Transition P)
  | transitions (transitions : List (Transition P))
  | exits (exits : State → V → Except E (List (ExitZone P)))

namespace MachineDraft

/-- The draft that every machine starts from. -/
def blank : MachineDraft V P E := ⟨"machine", none, [], [], none⟩

def addState (draft : MachineDraft V P E) (state : State) : MachineDraft V P E :=
  { draft with states := draft.states ++ [state] }

/-- Carries out one step. The last name, assembly and exit rule win; states and transitions add
up in the order of the steps. -/
def apply (draft : MachineDraft V P E) :
    MachineStep V P E → Except DraftError (MachineDraft V P E)
  | .name name => .ok { draft with name }
  | .assembly assembly => .ok { draft with assembly := some assembly }
  | .seed name => .ok (draft.addState (.seed name))
  | .ordinary name => .ok (draft.addState (.ordinary name))
  | .state state => .ok (draft.addState state)
  | .draftTransition steps => do
    let transition ← Transition.ofSteps steps
    return { draft with transitions := draft.transitions ++ [transition] }
  | .transition transition =>
    .ok { draft with transitions := draft.transitions ++ [transition] }
  | .transitions transitions =>
    .ok { draft with transitions := draft.transitions ++ transitions }
  | .exits exits => .ok { draft with exits := some exits }

/-- The drafted machine, in which no state has exit zones unless a rule was given. A missing
assembly is reported before missing states. -/
def finish (draft : MachineDraft V P E) : Except DraftError (Machine V P E) := do
  let some assembly := draft.assembly | throw .missingAssembly
  if draft.states.isEmpty then throw .noStates
  return {
    name := draft.name
    assembly
    states := draft.states
    transitions := draft.transitions
    exits := draft.exits.getD fun _ _ => .ok [] }

end MachineDraft

/-- A draft that could not be finished: what was missing, and at which step it showed. No step
is named when all of them could be carried out and only finishing failed. -/
structure DraftFailure where
  step : Option Nat
  error : DraftError
  deriving DecidableEq

namespace MachineDraft

/-- Carries out drafting steps, the first of which has the number `number`, up to the first that
fails. -/
def applyAll (draft : MachineDraft V P E) (number : Nat) :
    List (MachineStep V P E) → Except DraftFailure (MachineDraft V P E)
  | [] => .ok draft
  | step :: rest =>
    match draft.apply step with
    | .ok next => next.applyAll (number + 1) rest
    | .error error => .error ⟨some number, error⟩

end MachineDraft

/-- The machine that a sequence of drafting steps describes. -/
def Machine.ofSteps (steps : List (MachineStep V P E)) : Except DraftFailure (Machine V P E) := do
  let draft ← MachineDraft.blank.applyAll 0 steps
  draft.finish.mapError (⟨none, ·⟩)

end ReactiveReach
