import ReactiveReach.Contribution
import ReactiveReach.Machine

/-!
# One pass over a machine

A pass first finds the exit zones of every state from the values before the pass. It then gives
every state but the seed the join of what its incoming transitions contribute, all computed from
the values before the pass. Transitions are grouped by target beforehand, with their source states
at hand, so that a pass visits each once.

Reading a state that has no value or no zones is a failure of its own. It cannot happen in a
well-formed machine whose states all have values.
-/

namespace ReactiveReach

/-- The exit zones of states. -/
abbrev ZoneMap (P : Type) := StateMap (List (ExitZone P))

/-- Why a pass could not be completed. -/
inductive Fault (E : Type) where
  /-- A state was read that has no entry. -/
  | absent (state : StateId)
  /-- An operation on values, or the rule for exit zones, failed. -/
  | operation (cause : E)
  deriving DecidableEq

variable {V P E : Type}

def entryOf {α : Type} (map : StateMap α) (state : StateId) : Except (Fault E) α :=
  match map[state]? with
  | some entry => .ok entry
  | none => .error (.absent state)

/-- The values and zones after a pass, and the states whose values it changed, in the order of the
machine. The zones are those of the values before the pass. -/
structure PassOutcome (V P : Type) where
  semantics : StateMap V
  zones : ZoneMap P
  changed : List StateId

namespace Machine

/-- The exit zones of a state under some values. The seed has none. -/
def zonesUnder (machine : Machine V P E) (snapshot : StateMap V) (state : State) :
    Except (Fault E) (List (ExitZone P)) :=
  if state.isSeed then .ok []
  else do (machine.exits state (← entryOf snapshot state.id)).mapError .operation

/-- The exit zones of all states under some values, found in the order of the machine. -/
def refreshZones (machine : Machine V P E) (snapshot : StateMap V) :
    Except (Fault E) (ZoneMap P) :=
  machine.states.foldlM (fun zones state => do
    return zones.insert state.id (← machine.zonesUnder snapshot state)) ∅

/-- The states by id. Of states that share an id the last counts. -/
def statesById (machine : Machine V P E) : StateMap State :=
  .ofList (machine.states.map fun state => (state.id, state))

/-- The transitions into each state, in the order of the machine, each with its source state. -/
def incoming (machine : Machine V P E) : StateMap (List (State × Transition P)) :=
  let sources := machine.statesById
  machine.transitions.foldr (fun transition grouped =>
    match sources[transition.source]? with
    | some source =>
      grouped.insert transition.target
        ((source, transition) :: grouped.getD transition.target [])
    | none => grouped) ∅

/-- The states that a pass recomputes: all but the seed. -/
def recomputed (machine : Machine V P E) : List State := machine.states.filter (!·.isSeed)

variable [BEq P]

/-- The join of what some transitions contribute under some values and zones. -/
def joinIncoming (machine : Machine V P E) (snapshot : StateMap V) (zones : ZoneMap P)
    (edges : List (State × Transition P)) : Logged (Event V) (Fault E) V :=
  edges.foldlM (fun joined (source, transition) => do
    let value ← Logged.ofExcept (entryOf snapshot source.id)
    let exits ← Logged.ofExcept (entryOf zones source.id)
    let contributed ←
      (transition.contribution machine.assembly source value exits).mapError .operation
    return machine.assembly.join joined contributed) machine.assembly.bottom

/-- The values before and after a pass of one state. -/
def recompute (machine : Machine V P E) (grouped : StateMap (List (State × Transition P)))
    (snapshot : StateMap V) (zones : ZoneMap P) (state : State) :
    Logged (Event V) (Fault E) (StateId × V × V) := do
  let after ← machine.joinIncoming snapshot zones (grouped.getD state.id [])
  let before ← Logged.ofExcept (entryOf snapshot state.id)
  return (state.id, before, after)

/-- One pass over the machine, whose transitions are grouped by target already. -/
def pass [BEq V] (machine : Machine V P E) (grouped : StateMap (List (State × Transition P)))
    (snapshot : StateMap V) : Logged (Event V) (Fault E) (PassOutcome V P) := do
  let zones ← Logged.ofExcept (machine.refreshZones snapshot)
  let results ← machine.recomputed.mapM (machine.recompute grouped snapshot zones)
  let updates := results.filter fun (_, before, after) => after != before
  return {
    semantics := updates.foldl (fun values (id, _, after) => values.insert id after) snapshot
    zones
    changed := updates.map (·.1) }

end Machine
end ReactiveReach
