import ReactiveReach.Machine

/-!
# Well-formed machines

A machine is well-formed if exactly one state is a seed, no two states share an id, and every
transition joins states of the machine. `Machine.violations` lists every defect once: the seeds
first, then repeated ids, then unknown endpoints.
-/

namespace ReactiveReach

/-- A defect in the states or transitions of a machine. -/
inductive Violation where
  | missingSeed
  | multipleSeeds (seeds : List StateId)
  | duplicateState (id : StateId)
  | unknownSource (transition : Nat) (state : StateId)
  | unknownTarget (transition : Nat) (state : StateId)
  deriving DecidableEq

namespace Violation

def message : Violation → String
  | missingSeed => "no seed state"
  | multipleSeeds seeds => "more than one seed state: " ++ ", ".intercalate seeds
  | duplicateState id => "state id '" ++ id ++ "' is used more than once"
  | unknownSource transition state =>
    "transition #" ++ toString transition ++ " starts at unknown state '" ++ state ++ "'"
  | unknownTarget transition state =>
    "transition #" ++ toString transition ++ " ends at unknown state '" ++ state ++ "'"

end Violation

/-- The ids of a list that repeat, each at the place of its second occurrence. `seen` holds the
ids that come before the list. -/
def repeatedIds (seen : List StateId) : List StateId → List StateId
  | [] => []
  | id :: rest =>
    if seen.count id = 1 then id :: repeatedIds (id :: seen) rest
    else repeatedIds (id :: seen) rest

namespace Machine

variable {V P E : Type}

/-- The ids of the seed states, in the order of the machine. -/
def seeds (machine : Machine V P E) : List StateId :=
  (machine.states.filter (·.isSeed)).map (·.id)

/-- The defect in the number of seeds, if there is one. -/
def seedViolations (machine : Machine V P E) : List Violation :=
  match machine.seeds with
  | [] => [.missingSeed]
  | [_] => []
  | seeds => [.multipleSeeds seeds]

/-- The unknown endpoints of the transition with this number, the source first. -/
def endpointViolations (machine : Machine V P E) (number : Nat) (transition : Transition P) :
    List Violation :=
  (if machine.knows transition.source then [] else [.unknownSource number transition.source]) ++
    (if machine.knows transition.target then [] else [.unknownTarget number transition.target])

/-- Every defect of the machine, each reported once. -/
def violations (machine : Machine V P E) : List Violation :=
  machine.seedViolations ++
    (repeatedIds [] (machine.states.map (·.id))).map .duplicateState ++
    machine.transitions.zipIdx.flatMap fun (transition, number) =>
      machine.endpointViolations number transition

/-- A machine that the analysis accepts: one seed, distinct ids, and no dangling transition. -/
structure WellFormed (machine : Machine V P E) : Prop where
  one_seed : ∃ seed, machine.seeds = [seed]
  distinct_ids : (machine.states.map (·.id)).Nodup
  sources_known : ∀ transition ∈ machine.transitions, machine.knows transition.source = true
  targets_known : ∀ transition ∈ machine.transitions, machine.knows transition.target = true

end Machine
end ReactiveReach
