import ReactiveReach.History
import ReactiveReach.Solution
import ReactiveReach.Stored.Machine
import ReactiveReach.Validation

/-!
# The JSON form of what an analysis reports

Violations, the way a run ended, and histories. A count is read if it fits 64 bits.
-/

namespace ReactiveReach

def Json.count? : Json → Option Nat := Json.natural? UInt64.size

instance : JsonForm Convergence where
  toJson
    | .converged => .ofString "Converged"
    | .capReached cap =>
      .ofMembers [("IterationCapReached", .ofMembers [("cap", .natural cap)])]
  ofJson? json := do
    match ← json.choice? with
    | ("Converged", content) => if Json.isBare content then some .converged else none
    | ("IterationCapReached", some content) =>
      match ← content.record? ["cap"] with
      | [cap] => return .capReached (← cap.count?)
      | _ => none
    | _ => none

/-- The form of a violation that concerns an endpoint of a transition. -/
private def endpointForm (name : String) (transition : Nat) (state : StateId) : Json :=
  .ofMembers [(name, .ofMembers [("transition", .natural transition), ("state", toJson state)])]

/-- Reads what a violation says of an endpoint. -/
private def endpoint? (content : Json) : Option (Nat × StateId) := do
  match ← content.record? ["transition", "state"] with
  | [transition, state] => return (← transition.count?, ← ofJson? state)
  | _ => none

instance : JsonForm Violation where
  toJson
    | .missingSeed => .ofString "MissingSeed"
    | .multipleSeeds seeds =>
      .ofMembers [("MultipleSeeds", .ofMembers [("seeds", toJson seeds)])]
    | .duplicateState id => .ofMembers [("DuplicateState", .ofMembers [("id", toJson id)])]
    | .unknownSource transition state => endpointForm "UnknownSource" transition state
    | .unknownTarget transition state => endpointForm "UnknownTarget" transition state
  ofJson? json := do
    match ← json.choice? with
    | ("MissingSeed", content) => if Json.isBare content then some .missingSeed else none
    | ("MultipleSeeds", some content) =>
      match ← content.record? ["seeds"] with
      | [seeds] => return .multipleSeeds (← ofJson? seeds)
      | _ => none
    | ("DuplicateState", some content) =>
      match ← content.record? ["id"] with
      | [id] => return .duplicateState (← ofJson? id)
      | _ => none
    | ("UnknownSource", some content) => do
      let (transition, state) ← endpoint? content
      return .unknownSource transition state
    | ("UnknownTarget", some content) => do
      let (transition, state) ← endpoint? content
      return .unknownTarget transition state
    | _ => none

instance : JsonForm PassRecord where
  toJson entry := .ofMembers
    [("iteration", .natural entry.iteration), ("changed", toJson entry.changed)]
  ofJson? json := do
    match ← json.record? ["iteration", "changed"] with
    | [iteration, changed] => return ⟨← iteration.count?, ← ofJson? changed⟩
    | _ => none

instance : JsonForm History where
  toJson history := .ofMembers [("iterations", toJson history.toList)]
  ofJson? json := do
    match ← json.record? ["iterations"] with
    | [iterations] => return .ofList (← ofJson? iterations)
    | _ => none

end ReactiveReach
