import ReactiveReach.Proofs.CheckpointText

/-!
# Checkpoints among other members

A checkpoint is read from any object that has each of its fields once, in any order, laid out and
spelled in any way, whatever else the object holds. An object that lacks a field or repeats one is
not read, and its version is not looked at. Other members may have any name that is a text: a name
with half of a surrogate pair is no text, and an object with such a name is not read at all.
-/

namespace ReactiveReach.Checkpoint

def fieldNames : List String :=
  ["version", "id", "created_at", "machine", "iterations", "semantics"]

variable {V : Type} [Storable V]

/-- The current checkpoint is read from any object that has its fields once, if and only if its
values are read back where it holds them. -/
theorem ofText_of_once {checkpoint : Checkpoint V} (current : checkpoint.version = 1)
    (lower : 0 ≤ checkpoint.createdAt.date.year) (upper : checkpoint.createdAt.date.year ≤ 9999)
    {fields members : List (String × Json)}
    (written : checkpoint.toJson? = some (.ofMembers fields))
    (once : ∀ field ∈ fields, members.filter (·.1 == field.1) = [field])
    {text : String} (isText : Json.IsText text (.ofMembers members)) :
    ofText text = .ok checkpoint ↔ checkpoint.ValuesReadBack := by
  rw [ofText_eq_ok_iff isText, and_iff_left current]
  exact ofJson?_of_record lower upper written (Json.record?_of_fields once)

theorem ofText_unreadable {json : Json} (noRecord : json.record? fieldNames = none)
    {text : String} (isText : Json.IsText text json) :
    ∃ reason, (ofText text : Except _ (Checkpoint V)) = .error (.unreadable reason) := by
  have notSeen : (json.within Json.nestingLimit).record? fieldNames = none :=
    (Json.record?_within fieldNames _ json).trans (congrArg (Option.map _) noRecord)
  have notRead : (ofJson? (json.within Json.nestingLimit) : Option (Checkpoint V)) = none := by
    rw [fieldNames] at notSeen
    rw [ofJson?, notSeen]
    rfl
  rw [ofText_of_isText isText, notRead]
  exact ⟨_, rfl⟩

/-- Reading a checkpoint depends on its fields alone, each of which must be there once, and of these
on whether its values are read back where it holds them. -/
theorem ofText_of_fields :
    (∀ (checkpoint : Checkpoint V) (fields members : List (String × Json)) (text : String),
      checkpoint.version = 1 →
      0 ≤ checkpoint.createdAt.date.year → checkpoint.createdAt.date.year ≤ 9999 →
      checkpoint.toJson? = some (.ofMembers fields) →
      (∀ field ∈ fields, members.filter (·.1 == field.1) = [field]) →
      Json.IsText text (.ofMembers members) →
      (ofText text = .ok checkpoint ↔ checkpoint.ValuesReadBack)) ∧
    (∀ checkpoint : Checkpoint V, Storable.ReadBackFromText V →
      (∀ entry ∈ checkpoint.semantics.toList, ∀ form,
        valueToJson? entry.2 = some form → form.depth ≤ Json.nestingLimit - 2) →
      checkpoint.ValuesReadBack) ∧
    ∀ (members : List (Option String × Json)) (name : String) (text : String),
      name ∈ fieldNames → (members.filter (·.1 == some name)).length ≠ 1 →
      Json.IsText text (.object members) →
      ∃ reason, (ofText text : Except _ (Checkpoint V)) = .error (.unreadable reason) := by
  refine ⟨?_, fun _ => valuesReadBack_of_depth, ?_⟩
  · intro checkpoint fields members text current lower upper written once isText
    exact ofText_of_once current lower upper written once isText
  · intro members name text isField notOnce isText
    exact ofText_unreadable (Json.record?_eq_none isField notOnce) isText

private theorem exists_snapshot_written :
    ∃ semantics, (Samples.snapshot 1).toJson? =
      some (.ofMembers (Samples.snapshotFields semantics)) := by
  have valuesWritten : ∃ semantics, valuesToJson? (Samples.snapshot 1).semantics = some semantics :=
    Option.isSome_iff_exists.mp (by decide +kernel)
  obtain ⟨semantics, valuesWritten⟩ := valuesWritten
  have text : (Samples.snapshot 1).createdAt.text = "9999-12-31T23:59:60.999999999Z" := by
    decide +kernel
  refine ⟨semantics, toJson?_eq_some_iff.mpr ⟨semantics, valuesWritten, ?_⟩⟩
  rw [text]
  rfl

theorem snapshot_among_others :
    ∃ semantics,
      (Samples.snapshot 1).toJson? = some (.ofMembers (Samples.snapshotFields semantics)) ∧
      ofText (Json.ofMembers (Samples.snapshotMembers semantics)).indented =
        .ok (Samples.snapshot 1) ∧
      ∀ members ∈ [(Samples.snapshotMembers semantics).tail,
          ("iterations", .null) :: Samples.snapshotMembers semantics],
        ∃ reason, (ofText (Json.ofMembers members).compact : Except _ (Checkpoint Samples.Term)) =
          .error (.unreadable reason) := by
  obtain ⟨semantics, written⟩ := exists_snapshot_written
  obtain ⟨read, enough, refused⟩ := ofText_of_fields (V := Samples.Term)
  have readBack := Storable.readBackFromText_iff.mpr (Storable.readBackWithin_term _)
  refine ⟨semantics, written, ?_, ?_⟩
  · refine (read _ _ _ _ rfl (by decide) (by decide) written ?_ (Json.isText_indented _)).mpr
      (enough _ readBack fun entry _ form isForm => ?_)
    · simp [Samples.snapshotFields, Samples.snapshotMembers]
    · rw [Storable.eq_ofString_of_term isForm]
      exact Nat.zero_le _
  · have isField : "iterations" ∈ fieldNames := by decide
    simp only [List.forall_mem_cons, List.not_mem_nil, false_implies, implies_true, and_true]
    constructor <;> refine refused _ "iterations" _ isField ?_ (Json.isText_compact _) <;>
      simp [Samples.snapshotMembers]

/-- Half of a surrogate pair in a name spoils the text, although nothing is asked of the member. -/
theorem snapshot_beside_spoiled_name :
    ∃ semantics text, Storable.ReadBackFromText Samples.Term ∧
      (Samples.snapshot 1).ValuesReadBack ∧ (Samples.snapshot 1).version = 1 ∧
      (Samples.snapshot 1).createdAt.date.year = 9999 ∧
      (Samples.snapshot 1).toJson? = some (.ofMembers (Samples.snapshotFields semantics)) ∧
      (∀ field ∈ Samples.snapshotFields semantics,
        (Samples.spoiledMembers semantics).filter (·.1 == some field.1) =
          [(some field.1, field.2)]) ∧
      Json.IsText text (.object (Samples.spoiledMembers semantics)) ∧
      ∃ reason, (ofText text : Except _ (Checkpoint Samples.Term)) =
        .error (.unreadable reason) := by
  obtain ⟨semantics, written⟩ := exists_snapshot_written
  have isText := Json.isText_compact (.object (Samples.spoiledMembers semantics))
  have nameless : (none, .natural 0) ∈ Samples.spoiledMembers semantics := by
    simp [Samples.spoiledMembers]
  have readBack := Storable.readBackWithin_term
  refine ⟨semantics, _, Storable.readBackFromText_iff.mpr (readBack _), fun entry _ =>
    readBack _ entry.2, rfl, by decide, written, ?_, isText,
    ofText_unreadable (Json.record?_eq_none_of_nameless nameless) isText⟩
  simp [Samples.snapshotFields, Samples.spoiledMembers]

end ReactiveReach.Checkpoint
