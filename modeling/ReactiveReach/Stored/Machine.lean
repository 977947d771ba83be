import ReactiveReach.Json.Basic
import ReactiveReach.Transition

/-!
# The JSON form of the parts of a machine

Records are objects with their fields in order. The guard that always holds is written by its name
alone, a predicate as the content of an object with one member.
-/

namespace ReactiveReach

instance : JsonForm String where
  toJson := .ofString
  ofJson? := Json.string?

instance : JsonForm UInt32 where
  toJson word := .natural word.toNat
  ofJson? json := (json.natural? UInt32.size).map .ofNat

instance {α : Type} [JsonForm α] : JsonForm (List α) where
  toJson values := .array (values.map toJson)
  ofJson? := Json.list? ofJson?

instance : JsonForm State where
  toJson state := .ofMembers
    [("id", toJson state.id), ("name", toJson state.name), ("is_seed", .bool state.isSeed)]
  ofJson? json := do
    match ← json.record? ["id", "name", "is_seed"] with
    | [id, name, isSeed] => return ⟨← ofJson? id, ← ofJson? name, ← isSeed.bool?⟩
    | _ => none

instance : JsonForm Action where
  toJson action := .ofMembers
    [("submachine", toJson action.submachine), ("event", toJson action.event)]
  ofJson? json := do
    match ← json.record? ["submachine", "event"] with
    | [submachine, event] => return ⟨← ofJson? submachine, ← ofJson? event⟩
    | _ => none

variable {P : Type} [JsonForm P]

instance : JsonForm (Guard P) where
  toJson
    | .always => .ofString "Always"
    | .holds predicate => .ofMembers [("Predicate", toJson predicate)]
  ofJson? json := do
    match ← json.choice? with
    | ("Always", content) => if Json.isBare content then some .always else none
    | ("Predicate", some content) => return .holds (← ofJson? content)
    | _ => none

instance : JsonForm (ExitZone P) where
  toJson zone := .ofMembers
    [("target", toJson zone.target), ("submachine", toJson zone.submachine),
      ("transition", toJson zone.step)]
  ofJson? json := do
    match ← json.record? ["target", "submachine", "transition"] with
    | [target, submachine, step] =>
      return ⟨← ofJson? target, ← ofJson? submachine, ← ofJson? step⟩
    | _ => none

instance : JsonForm (Transition P) where
  toJson transition := .ofMembers
    [("source", toJson transition.source), ("target", toJson transition.target),
      ("triggerable", .bool transition.triggerable), ("guard", toJson transition.guard),
      ("actions", toJson transition.actions)]
  ofJson? json := do
    match ← json.record? ["source", "target", "triggerable", "guard", "actions"] with
    | [source, target, triggerable, guard, actions] =>
      return ⟨← ofJson? source, ← ofJson? target, ← triggerable.bool?, ← ofJson? guard,
        ← ofJson? actions⟩
    | _ => none

end ReactiveReach
