import ReactiveReach.Config
import ReactiveReach.Proofs.JsonNesting
import ReactiveReach.Proofs.JsonText
import ReactiveReach.Stored.Outcome

/-!
# Parts of machines and reports that were written as text

The parts of a machine and what an analysis reports are read back from any text of their form.
Nothing is asked of predicates but that they are read back where they stand; their forms may well
look like those of guards. What stands around a predicate leaves one or two levels less to its
readers than it has alone. A count that no word of 64 bits holds is not read back, and beside
predicates it is the only thing that is not. A solver configuration is read back before it is
checked.
-/

namespace ReactiveReach

/-- The count that a violation tells of, if it does. -/
def Violation.count? : Violation → Option Nat
  | missingSeed | multipleSeeds _ | duplicateState _ => none
  | unknownSource transition _ | unknownTarget transition _ => some transition

def Convergence.count? : Convergence → Option Nat
  | converged => none
  | capReached cap => some cap

theorem History.ofList_eq_iff {entries : List PassRecord} {history : History} :
    ofList entries = history ↔ entries = history.toList := by
  constructor
  · rintro rfl
    exact (toList_ofList entries).symm
  · rintro rfl
    exact toList_injective (toList_ofList _)

namespace JsonForm

variable {α : Type} [JsonForm α]

/-- Every text of a value's form, compact or laid out in any other way, is read as that
value. -/
def ReadBack (value : α) : Prop :=
  ∀ text, Json.IsText text (toJson value) → Json.parse? text >>= ofJson? = some value

/-- A reader with so many levels left reads the value back from its form. -/
def ReadBackWithin (levels : Nat) (value : α) : Prop :=
  ofJson? ((toJson value).within levels) = some value

theorem readBack_iff {value : α} : ReadBack value ↔ ReadBackWithin Json.nestingLimit value := by
  constructor
  · intro reads
    have compact := reads _ (Json.isText_compact _)
    rwa [Json.parse?_compact] at compact
  · intro read text isText
    rw [Json.parse?_of_isText isText]
    exact read

/-- With fewer levels than for a text of its own, a value is read back if these are enough. -/
theorem ReadBack.within {value : α} (readBack : ReadBack value) {levels : Nat}
    (fewer : levels ≤ Json.nestingLimit) (enough : (toJson value).depth ≤ levels) :
    ReadBackWithin levels value := by
  have alone := readBack_iff.mp readBack
  rw [ReadBackWithin, Json.within_of_depth_le (enough.trans fewer)] at alone
  rw [ReadBackWithin, Json.within_of_depth_le enough, alone]

section Within

variable {levels : Nat}

/-- A record is read back if it can be built from the forms of its fields, where one level less is
left. -/
theorem readBackWithin_iff_of_record {value : α} {build : List Json → Option α}
    (fields : List (String × Json)) (written : toJson value = .ofMembers fields)
    (reads : ∀ json, ofJson? json = json.record? (fields.map Prod.fst) >>= build)
    (distinct : (fields.map Prod.fst).Nodup) :
    ReadBackWithin (levels + 1) value ↔
      build ((fields.map Prod.snd).map (Json.within levels)) = some value := by
  rw [ReadBackWithin, written, reads, Json.record?_within, Json.record?_ofMembers distinct]
  rfl

/-- The same for an alternative whose content is a record. -/
theorem readBackWithin_iff_of_alternative {value : α} {build : List Json → Option α}
    (name : String) (fields : List (String × Json))
    (written : toJson value = .ofMembers [(name, .ofMembers fields)])
    (reads : ∀ content, ofJson? (.ofMembers [(name, content)]) =
      content.record? (fields.map Prod.fst) >>= build)
    (distinct : (fields.map Prod.fst).Nodup) :
    ReadBackWithin (levels + 2) value ↔
      build ((fields.map Prod.snd).map (Json.within levels)) = some value := by
  have read := reads ((Json.ofMembers fields).within (levels + 1))
  rw [Json.record?_within, Json.record?_ofMembers distinct] at read
  rw [ReadBackWithin, written, Json.within_ofMembers_succ, List.map_singleton, read]
  rfl

theorem readBackWithin_list_iff {values : List α} :
    ReadBackWithin (levels + 1) values ↔ ∀ value ∈ values, ReadBackWithin levels value := by
  change ((values.map toJson).map (Json.within levels)).mapM ofJson? = some values ↔ _
  rw [List.map_map, List.mapM_map, mapM_eq_some_iff, List.forall₂_same]
  rfl

@[simp]
theorem ofJson?_string (content : String) : ofJson? (toJson content) = some content :=
  rfl

@[simp]
theorem within_toJson_string (content : String) :
    (toJson content).within levels = toJson content :=
  Json.within_ofString levels content

@[simp]
theorem ofJson?_strings (contents : List String) :
    ofJson? ((toJson contents).within (levels + 1)) = some contents :=
  readBackWithin_list_iff.mpr fun content _ => by simp [ReadBackWithin]

/-! ## Parts of machines -/

theorem readBackWithin_state (state : State) : ReadBackWithin (levels + 1) state :=
  (readBackWithin_iff_of_record _ rfl (fun _ => rfl) (by simp)).mpr (by simp [Json.bool?])

theorem readBackWithin_action (action : Action) : ReadBackWithin (levels + 1) action :=
  (readBackWithin_iff_of_record _ rfl (fun _ => rfl) (by simp)).mpr (by simp)

theorem readBackWithin_exitZone_iff {zone : ExitZone α} :
    ReadBackWithin (levels + 1) zone ↔ ReadBackWithin levels zone.target := by
  rw [readBackWithin_iff_of_record _ rfl (fun _ => rfl) (by simp), ReadBackWithin]
  cases zone
  simp [Option.bind_eq_some_iff]

theorem readBackWithin_always : ReadBackWithin levels (Guard.always : Guard α) :=
  congrArg ofJson? (Json.within_ofString levels "Always")

/-- The content of a guard is read as a predicate, whatever its form looks like. -/
theorem readBackWithin_holds_iff {predicate : α} :
    ReadBackWithin (levels + 1) (Guard.holds predicate) ↔ ReadBackWithin levels predicate := by
  change (do return Guard.holds (← ofJson? ((toJson predicate).within levels))) = _ ↔ _
  simp [ReadBackWithin, Option.bind_eq_some_iff]

theorem readBackWithin_guard_iff {guard : Guard α} :
    ReadBackWithin (levels + 1) guard ↔
      ∀ predicate, guard = .holds predicate → ReadBackWithin levels predicate := by
  cases guard with
  | always => simp [readBackWithin_always]
  | holds predicate => simp [readBackWithin_holds_iff]

theorem readBackWithin_transition_iff {transition : Transition α} :
    ReadBackWithin (levels + 3) transition ↔ ReadBackWithin (levels + 2) transition.guard := by
  have actions : ReadBackWithin (levels + 2) transition.actions :=
    readBackWithin_list_iff.mpr fun action _ => readBackWithin_action action
  rw [ReadBackWithin] at actions
  rw [readBackWithin_iff_of_record _ rfl (fun _ => rfl) (by simp), ReadBackWithin]
  cases transition
  simp [Option.bind_eq_some_iff, actions, Json.bool?]

/-! ## What an analysis reports -/

theorem readBackWithin_record_iff {entry : PassRecord} :
    ReadBackWithin (levels + 2) entry ↔ entry.iteration < UInt64.size := by
  rw [readBackWithin_iff_of_record _ rfl (fun _ => rfl) (by simp)]
  cases entry
  simp [Json.count?, Json.natural?, Option.bind_eq_some_iff]

theorem readBackWithin_history_iff {history : History} :
    ReadBackWithin (levels + 4) history ↔
      ∀ entry ∈ history.toList, entry.iteration < UInt64.size := by
  have records : ReadBackWithin (levels + 3) history.toList ↔
      ∀ entry ∈ history.toList, entry.iteration < UInt64.size := by
    simp only [readBackWithin_list_iff, readBackWithin_record_iff]
  rw [← records, readBackWithin_iff_of_record _ rfl (fun _ => rfl) (by simp), ReadBackWithin]
  simp [Option.bind_eq_some_iff, History.ofList_eq_iff]

theorem readBackWithin_convergence_iff {convergence : Convergence} :
    ReadBackWithin (levels + 2) convergence ↔
      ∀ count ∈ convergence.count?, count < UInt64.size := by
  cases convergence with
  | converged =>
      have read : ReadBackWithin (levels + 2) Convergence.converged := rfl
      simp [Convergence.count?, read]
  | capReached cap =>
      rw [readBackWithin_iff_of_alternative _ _ rfl (fun _ => rfl) (by simp)]
      simp [Convergence.count?, Json.count?, Json.natural?, Option.bind_eq_some_iff]

theorem readBackWithin_violation_iff {violation : Violation} :
    ReadBackWithin (levels + 3) violation ↔
      ∀ count ∈ violation.count?, count < UInt64.size := by
  cases violation with
  | missingSeed =>
      have read : ReadBackWithin (levels + 3) Violation.missingSeed := rfl
      simp [Violation.count?, read]
  | multipleSeeds seeds =>
      rw [readBackWithin_iff_of_alternative _ _ rfl (fun _ => rfl) (by simp)]
      simp [Violation.count?]
  | duplicateState id =>
      rw [readBackWithin_iff_of_alternative _ _ rfl (fun _ => rfl) (by simp)]
      simp [Violation.count?]
  | unknownSource transition state | unknownTarget transition state =>
      -- The endpoint is read as a pair first.
      rw [readBackWithin_iff_of_alternative _ _ rfl (fun _ => Option.bind_assoc _ _ _) (by simp)]
      simp [Violation.count?, Json.count?, Json.natural?, Option.bind_eq_some_iff]

/-! ## Solver configurations -/

theorem readBackWithin_config (config : SolverConfig) : ReadBackWithin (levels + 1) config := by
  have setting := Json.natural?_natural config.maxIterations.toNat_lt_size
  change (do
    let maxIterations ← ((Json.natural config.maxIterations.toNat).within levels).natural?
      UInt64.size
    return SolverConfig.mk (.ofNat maxIterations)) = _
  simp [setting]

end Within

/-- A configuration is read from any text of its form and then refused if it allows no
pass. -/
theorem ofText_of_isText_config {config : SolverConfig} {text : String}
    (isText : Json.IsText text (toJson config)) :
    SolverConfig.ofText text =
      if config.maxIterations = 0 then .error .noPasses else .ok config := by
  have read := readBack_iff.mpr (readBackWithin_config config) text isText
  rw [SolverConfig.ofText, read]
  by_cases noPasses : config.maxIterations = 0 <;> simp [SolverConfig.validate, noPasses]

end JsonForm
end ReactiveReach
