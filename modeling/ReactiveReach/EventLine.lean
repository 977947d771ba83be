import ReactiveReach.Event

/-!
# Events as lines of text

A line shows when an event happened, its level, where it comes from, its message and its fields.
-/

namespace ReactiveReach.Event

variable {V : Type}

/-- The part of the analysis that reports an event, as lines name it. -/
def origin : Event V → String
  | contributed .. => "reactive_semantics::solver::contribution"
  | _ => "reactive_semantics::solver::fixpoint"

/-- The content of a field as lines show it. -/
def shownField : FieldValue → String
  | .name text => "\"" ++ text ++ "\""
  | .text text => text
  | .count number => toString number
  | .flag value => if value then "true" else "false"

/-- The label of a level, moved to the right end of five columns. -/
def shownLevel (level : Level) : String :=
  String.ofList (List.replicate (5 - level.label.length) ' ') ++ level.label

def line (time : String) (describe : V → String) (event : Event V) : String :=
  time ++ " " ++ shownLevel event.level ++ " " ++ event.origin ++ ": " ++ event.message ++
    String.join ((event.fields describe).map fun (name, value) =>
      " " ++ name ++ "=" ++ shownField value)

end ReactiveReach.Event
