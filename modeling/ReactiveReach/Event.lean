import ReactiveReach.State

/-!
# Events of a run

What an analysis reports while it works, from the start of a run to its end. An event knows its
level, its message and its fields; where and how it is shown is up to the caller.
-/

namespace ReactiveReach

/-- How much an event matters, the least first. -/
inductive Level where
  | trace
  | debug
  | info
  | warn
  | error
  deriving DecidableEq

namespace Level

/-- The levels in order, from zero. -/
def rank : Level → Nat
  | trace => 0
  | debug => 1
  | info => 2
  | warn => 3
  | error => 4

def label : Level → String
  | trace => "TRACE"
  | debug => "DEBUG"
  | info => "INFO"
  | warn => "WARN"
  | error => "ERROR"

end Level

/-- Something that happened during a run over values `V`. -/
inductive Event (V : Type) where
  | started (machine : String) (states transitions : Nat)
  | resumed (machine checkpoint : String) (previous : Nat)
  /-- A transition gave its target a value. -/
  | contributed (source target : StateId) (triggerable : Bool) (value : V)
  | passed (machine : String) (iteration changed : Nat)
  | capReached (machine : String) (cap : Nat)
  | completed (machine : String) (iterations : Nat) (converged : Bool)
  deriving DecidableEq

/-- The content of one field of an event. -/
inductive FieldValue where
  /-- A name, which a line of text shows in quotes. -/
  | name (text : String)
  | text (text : String)
  | count (number : Nat)
  | flag (value : Bool)
  deriving DecidableEq

namespace Event

variable {V : Type}

def level : Event V → Level
  | started .. | resumed .. | completed .. => .info
  | contributed .. => .trace
  | passed .. => .debug
  | capReached .. => .warn

def message : Event V → String
  | started .. => "starting fixed-point semantics computation"
  | resumed .. => "resuming fixed-point semantics computation"
  | contributed .. => "transition contribution"
  | passed .. => "fixed-point pass complete"
  | capReached _ cap =>
    "semantics did not converge within " ++ toString cap ++
      " iterations; returning the last computed map"
  | completed .. => "completed fixed-point semantics computation"

/-- The fields of an event by name, in the order in which they are shown. -/
def fields (describe : V → String) : Event V → List (String × FieldValue)
  | started machine states transitions =>
    [("machine", .name machine), ("states", .count states), ("transitions", .count transitions)]
  | resumed machine checkpoint previous =>
    [("machine", .name machine), ("checkpoint", .text checkpoint),
      ("previous_iterations", .count previous)]
  | contributed source target triggerable value =>
    [("source", .text source), ("target", .text target), ("triggerable", .flag triggerable),
      ("contribution", .text (describe value))]
  | passed machine iteration changed =>
    [("machine", .name machine), ("iteration", .count iteration), ("changed", .count changed)]
  | capReached machine cap => [("machine", .name machine), ("cap", .count cap)]
  | completed machine iterations converged =>
    [("machine", .name machine), ("iterations", .count iterations),
      ("converged", .flag converged)]

end Event
end ReactiveReach
