import ReactiveReach.Samples.Bits

/-!
# Assemblies over flags

An assembly whose values are sets of 32 flags and whose sub-machines are given by tables, together
with the simplest rule for exit zones: one zone for every state that has certain flags.
-/

namespace ReactiveReach.Samples

inductive BitError where
  | unknownTransition (submachine : SubmachineId) (step : StepId)
  | unknownEvent (submachine : SubmachineId) (event : EventId)
  deriving DecidableEq

namespace BitError

def message : BitError → String
  | unknownTransition submachine step => "unknown transition " ++ submachine ++ "." ++ step
  | unknownEvent submachine event => "unknown event " ++ submachine ++ "." ++ event

end BitError

/-- The tables of an assembly over flags. -/
structure BitTables where
  initial : UInt32
  transitions : EffectTable Remap
  events : EffectTable Remap

/-- The assembly that some tables describe. Of entries for one step the last counts. -/
def BitTables.assembly (tables : BitTables) : Assembly UInt32 UInt32 BitError where
  id := "bits"
  bottom := 0
  top := 0xFFFFFFFF
  meet a b := a &&& b
  join a b := a ||| b
  fire submachine step flags :=
    match tables.transitions.find? submachine step with
    | some remap => .ok (remap.apply flags)
    | none => .error (.unknownTransition submachine step)
  deliver submachine event flags :=
    match tables.events.find? submachine event with
    | some remap => .ok (remap.apply flags)
    | none => .error (.unknownEvent submachine event)
  initial := .ok tables.initial
  meaning predicate := .ok predicate

/-- Gives every state that has some of the flags `condition` the one exit zone `zone`. -/
def zoneWhen {E : Type} (condition : UInt32) (zone : ExitZone UInt32) (_ : State)
    (flags : UInt32) : Except E (List (ExitZone UInt32)) :=
  .ok (if flags &&& condition != 0 then [zone] else [])

end ReactiveReach.Samples
