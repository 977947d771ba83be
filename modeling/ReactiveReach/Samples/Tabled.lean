import ReactiveReach.Machine

/-!
# Assemblies given by tables

An assembly over some kind of value can be written down as tables: what each predicate means, and
what each transition and event of a sub-machine does. What a table does not list fails, except
that predicates have a meaning of their own. Exit zones are given by rules that are tried in order.
-/

namespace ReactiveReach.Samples

/-- A kind of value `V`, with predicates `P` and effects `F` that sub-machines may have on it. -/
structure Carrier (V P F : Type) where
  /-- The least value, which may depend on the id of the assembly. -/
  bottom : String → V
  top : V
  meet : V → V → V
  join : V → V → V
  apply : F → V → V
  /-- What a predicate means where no table says otherwise. -/
  meaning : P → V
  /-- Whether two values have something in common, for the conditions of zone rules. -/
  meets : V → V → Bool

/-- Why an operation of a tabled assembly failed. -/
inductive TableError (P : Type) where
  | unknownTransition (submachine : SubmachineId) (step : StepId)
  | unknownEvent (submachine : SubmachineId) (event : EventId)
  | unknownPredicate (predicate : P)
  | noInitial
  | zonesFailed (reason : String)
  deriving DecidableEq

namespace TableError

variable {P : Type}

def message (describe : P → String) : TableError P → String
  | unknownTransition submachine step =>
    "no transition '" ++ step ++ "' in sub-machine '" ++ submachine ++ "'"
  | unknownEvent submachine event =>
    "sub-machine '" ++ submachine ++ "' does not handle event '" ++ event ++ "'"
  | unknownPredicate predicate => "no meaning for predicate " ++ describe predicate
  | noInitial => "no initial semantics"
  | zonesFailed reason => "zones failed: " ++ reason

end TableError

/-- What some transitions or events of sub-machines do. -/
abbrev EffectTable (F : Type) := List ((SubmachineId × String) × F)

/-- The last effect that a table lists under a sub-machine and a name. -/
def EffectTable.find? {F : Type} (table : EffectTable F) (submachine : SubmachineId)
    (name : String) : Option F :=
  (List.reverse table).lookup (submachine, name)

variable {V P F : Type}

structure Tables (V P F : Type) where
  id : String
  initial : Option V
  /-- The value of every configuration, if it is not that of the carrier. -/
  top : Option V
  /-- Meanings of predicates, of which the first entry counts; one without a value has none. -/
  predicates : List (P × Option V)
  transitions : EffectTable F
  events : EffectTable F

def Tables.assembly [BEq P] (tables : Tables V P F) (carrier : Carrier V P F) :
    Assembly V P (TableError P) where
  id := tables.id
  bottom := carrier.bottom tables.id
  top := tables.top.getD carrier.top
  meet := carrier.meet
  join := carrier.join
  fire submachine step value :=
    match tables.transitions.find? submachine step with
    | some effect => .ok (carrier.apply effect value)
    | none => .error (.unknownTransition submachine step)
  deliver submachine event value :=
    match tables.events.find? submachine event with
    | some effect => .ok (carrier.apply effect value)
    | none => .error (.unknownEvent submachine event)
  initial :=
    match tables.initial with
    | some value => .ok value
    | none => .error .noInitial
  meaning predicate :=
    match tables.predicates.lookup predicate with
    | some (some value) => .ok value
    | some none => .error (.unknownPredicate predicate)
    | none => .ok (carrier.meaning predicate)

/-- What a zone rule does where it applies. -/
inductive ZoneEffect (P : Type) where
  | exit (zone : ExitZone P)
  | failure (reason : String)

/-- A rule for exit zones. Conditions that are left out hold. -/
structure ZoneRule (V P : Type) where
  /-- The value of the state must meet this one. -/
  value : Option V
  /-- The id of the state must be one of these. -/
  states : Option (List StateId)
  /-- The name of the state must be one of these. -/
  names : Option (List String)
  effect : ZoneEffect P

namespace ZoneRule

def applies (meets : V → V → Bool) (rule : ZoneRule V P) (state : State) (value : V) : Bool :=
  rule.value.all (meets value ·) && rule.states.all (·.contains state.id) &&
    rule.names.all (·.contains state.name)

/-- The exit zones that rules give to a state, or the first failure among the rules that apply. -/
def exits (meets : V → V → Bool) (rules : List (ZoneRule V P)) (state : State) (value : V) :
    Except (TableError P) (List (ExitZone P)) :=
  (rules.filter (·.applies meets state value)).mapM fun rule =>
    match rule.effect with
    | .exit zone => .ok zone
    | .failure reason => .error (.zonesFailed reason)

end ZoneRule
end ReactiveReach.Samples
