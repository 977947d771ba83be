import ReactiveReach.Assembly
import ReactiveReach.Event
import ReactiveReach.Logged

/-!
# What a transition contributes to its target

A transition that is triggerable, or that leaves the seed, passes on the part of its source's
value that meets its guard. A reactive transition passes on the join of the images of its source's
value under the exit zones that its guard admits. In both cases the actions then take effect.
-/

namespace ReactiveReach

variable {V P E : Type}

namespace Transition

/-- The value that passes the transition before its actions take effect. -/
def fired [BEq P] (transition : Transition P) (assembly : Assembly V P E) (source : State)
    (value : V) (zones : List (ExitZone P)) : Except E V :=
  if transition.triggerable || source.isSeed then do
    return assembly.meet value (← assembly.guardMeaning transition.guard)
  else
    assembly.fireAll (zones.filter fun zone => transition.guard.admits zone.target) value

/-- The value that the transition gives to its target, when its source has the given value and
exit zones. -/
def contribute [BEq P] (transition : Transition P) (assembly : Assembly V P E) (source : State)
    (value : V) (zones : List (ExitZone P)) : Except E V := do
  assembly.deliverAll transition.actions (← transition.fired assembly source value zones)

/-- The contribution of the transition, reported once it is known. -/
def contribution [BEq P] (transition : Transition P) (assembly : Assembly V P E) (source : State)
    (value : V) (zones : List (ExitZone P)) : Logged (Event V) E V := do
  let result ← Logged.ofExcept (transition.contribute assembly source value zones)
  Logged.emit <|
    .contributed transition.source transition.target transition.triggerable result
  return result

end Transition
end ReactiveReach
