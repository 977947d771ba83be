import ReactiveReach.Config
import ReactiveReach.Solution
import ReactiveReach.Validation

/-!
# Solving a machine

A run starts from values for all states and repeats the pass until one changes nothing or as many
were made as the solver allows. Solving starts from bottom everywhere but at the seed, resuming
from a checkpoint; in both cases the seed has the initial value of the assembly and keeps it.
Verifying makes a single pass and only tells what it would change.

A machine that is not well-formed is refused first, then a checkpoint of another machine, then
values for other states than those of the machine.
-/

namespace ReactiveReach

/-- Why a machine was not analysed. -/
inductive SolveError (E : Type) where
  | malformed (machine : String) (violations : List Violation)
  | incomplete (machine : String) (missing unexpected : List StateId)
  | foreignCheckpoint (machine checkpoint : String)
  | failed (fault : Fault E)
  deriving DecidableEq

namespace SolveError

variable {E : Type}

def message (describe : E → String) : SolveError E → String
  | malformed machine violations =>
    "machine '" ++ machine ++ "' is malformed: " ++
      "; ".intercalate (violations.map Violation.message)
  | incomplete machine missing unexpected =>
    "semantics map does not cover machine '" ++ machine ++ "' (missing: [" ++
      ", ".intercalate missing ++ "], unexpected: [" ++ ", ".intercalate unexpected ++ "])"
  | foreignCheckpoint machine checkpoint =>
    "checkpoint of machine '" ++ checkpoint ++ "' cannot resume machine '" ++ machine ++ "'"
  | failed (.operation cause) => "lattice operation failed: " ++ describe cause
  | failed (.absent state) => "state '" ++ state ++ "' has no value"

end SolveError

variable {V P E : Type}

namespace Machine

/-- The seed of a well-formed machine. -/
def checkedSeed (machine : Machine V P E) : Except (SolveError E) State :=
  match machine.violations with
  | [] =>
    match machine.states.find? (·.isSeed) with
    | some seed => .ok seed
    | none => .error (.malformed machine.name [.missingSeed])
  | violations => .error (.malformed machine.name violations)

/-- The ids of states without a value, in the order of the machine. -/
def uncovered (machine : Machine V P E) (values : StateMap V) : List StateId :=
  (machine.states.map (·.id)).filter (!values.contains ·)

/-- The ids with a value that belong to no state, in the order of ids. -/
def unexpected (machine : Machine V P E) (values : StateMap V) : List StateId :=
  values.keys.filter (!machine.knows ·)

/-- Refuses values that are not for exactly the states of the machine. -/
def checkCoverage (machine : Machine V P E) (values : StateMap V) : Except (SolveError E) Unit :=
  match machine.uncovered values, machine.unexpected values with
  | [], [] => .ok ()
  | missing, unexpected => .error (.incomplete machine.name missing unexpected)

/-- Bottom for every state. -/
def bottomValues (machine : Machine V P E) : StateMap V :=
  .ofList (machine.states.map fun state => (state.id, machine.assembly.bottom))

def initialValue (machine : Machine V P E) : Except (SolveError E) V :=
  machine.assembly.initial.mapError fun cause => .failed (.operation cause)

end Machine

/-- Where a run stands between two passes. -/
structure Progress (V P : Type) where
  semantics : StateMap V
  zones : ZoneMap P
  passes : Nat
  history : History
  /-- The last pass changed nothing. -/
  settled : Bool

namespace Progress

def start (semantics : StateMap V) : Progress V P := ⟨semantics, ∅, 0, .empty, false⟩

/-- Makes one more pass and takes note of what it changed. -/
def advance [BEq V] [BEq P] (machine : Machine V P E)
    (grouped : StateMap (List (State × Transition P))) (progress : Progress V P) :
    Logged (Event V) (Fault E) (Progress V P) := do
  let outcome ← machine.pass grouped progress.semantics
  let iteration := progress.passes + 1
  Logged.emit (.passed machine.name iteration outcome.changed.length)
  return {
    semantics := outcome.semantics
    zones := outcome.zones
    passes := iteration
    history := progress.history.record ⟨iteration, outcome.changed⟩
    settled := outcome.changed.isEmpty }

/-- The outcome of a run that ends here, after at most `cap` passes. -/
def solution (progress : Progress V P) (cap : Nat) : Solution V P where
  semantics := progress.semantics
  zones := progress.zones
  iterations := progress.passes
  convergence := if progress.settled then .converged else .capReached cap
  history := progress.history

end Progress

namespace Solver

variable [BEq V] [BEq P]

/-- Runs passes from some values until one changes nothing or the cap is reached. -/
def run (solver : Solver) (machine : Machine V P E) (semantics : StateMap V) :
    Logged (Event V) (SolveError E) (Solution V P) := do
  let grouped := machine.incoming
  let last ← (Logged.iterate (Progress.advance machine grouped) (·.settled) solver.cap
    (.start semantics)).mapError .failed
  unless last.settled do
    Logged.emit (.capReached machine.name solver.cap)
  Logged.emit (.completed machine.name last.passes last.settled)
  return last.solution solver.cap

/-- Computes the value of every state, starting from bottom. -/
def solve (solver : Solver) (machine : Machine V P E) :
    Logged (Event V) (SolveError E) (Solution V P) := do
  let seed ← Logged.ofExcept machine.checkedSeed
  Logged.emit (.started machine.name machine.states.length machine.transitions.length)
  let initial ← Logged.ofExcept machine.initialValue
  solver.run machine (machine.bottomValues.insert seed.id initial)

/-- Goes on from the values of a checkpoint. -/
def resume (solver : Solver) (machine : Machine V P E) (checkpoint : Checkpoint V) :
    Logged (Event V) (SolveError E) (Solution V P) := do
  let seed ← Logged.ofExcept machine.checkedSeed
  if checkpoint.machine ≠ machine.name then
    Logged.ofExcept (.error (.foreignCheckpoint machine.name checkpoint.machine))
  Logged.ofExcept (machine.checkCoverage checkpoint.semantics)
  Logged.emit (.resumed machine.name checkpoint.id checkpoint.iterations.toNat)
  let initial ← Logged.ofExcept machine.initialValue
  solver.run machine (checkpoint.semantics.insert seed.id initial)

end Solver

/-- The states whose value one more pass over some values would change. The values are a fixed
point if there are none. -/
def Machine.verify [BEq V] [BEq P] (machine : Machine V P E) (semantics : StateMap V) :
    Logged (Event V) (SolveError E) (List StateId) := do
  let _ ← Logged.ofExcept machine.checkedSeed
  Logged.ofExcept (machine.checkCoverage semantics)
  let outcome ← (machine.pass machine.incoming semantics).mapError .failed
  return outcome.changed

end ReactiveReach
