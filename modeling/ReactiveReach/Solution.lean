import ReactiveReach.Checkpoint
import ReactiveReach.History
import ReactiveReach.Pass

/-!
# Solutions

What a run ends with: the values and zones of all states, how many passes it made, whether it came
to rest, and the record of its passes. When it began and ended is left out, for nothing depends on
it.
-/

namespace ReactiveReach

inductive Convergence where
  /-- The last pass changed nothing. -/
  | converged
  /-- The last pass that was allowed still changed something. -/
  | capReached (cap : Nat)
  deriving DecidableEq

/-- The outcome of a run. The zones are those of the values before the last pass. -/
structure Solution (V P : Type) where
  semantics : StateMap V
  zones : ZoneMap P
  iterations : Nat
  convergence : Convergence
  history : History

namespace Solution

variable {V P : Type}

def value? (solution : Solution V P) (state : StateId) : Option V := solution.semantics[state]?

/-- The exit zones of a state; a state that the solution does not cover has none. -/
def zonesOf (solution : Solution V P) (state : StateId) : List (ExitZone P) :=
  solution.zones.getD state []

def isConverged (solution : Solution V P) : Bool := solution.convergence = .converged

/-- The values of the solution, set aside under the name of a machine. -/
def checkpoint (solution : Solution V P) (id : String) (createdAt : Instant) (machine : String) :
    Checkpoint V :=
  .create id createdAt machine (.ofNat solution.iterations) solution.semantics

end Solution
end ReactiveReach
