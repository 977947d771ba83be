import ReactiveReach.Proofs.Forms
import ReactiveReach.Proofs.Instants
import ReactiveReach.Proofs.JsonNesting
import ReactiveReach.Proofs.JsonText
import ReactiveReach.Proofs.Results
import ReactiveReach.Samples.Configurations
import ReactiveReach.Samples.Snapshot
import ReactiveReach.Stored.Checkpoint

/-!
# Checkpoints that were written as text

A checkpoint that was written as text is read back as it was, and then accepted or refused by its
version alone, if and only if each of its values is read back where the checkpoint holds it. There a
reader has two levels less than for a value alone, which is all that is asked beside that.
-/

namespace ReactiveReach

namespace Storable

variable {V : Type} [Storable V]

/-- A reader with so many levels left reads the value back from its JSON form, if it has one. -/
def ReadBackWithin (levels : Nat) (value : V) : Prop :=
  ∀ form, valueToJson? value = some form → valueOfJson? (form.within levels) = some value

/-- Values that can be written as JSON text are read back from it. -/
def ReadBackFromText (V : Type) [Storable V] : Prop :=
  ∀ (value : V) (json : Json), valueToJson? value = some json →
    (Json.parse? json.compact).bind valueOfJson? = some value

theorem readBackFromText_iff :
    ReadBackFromText V ↔ ∀ value : V, ReadBackWithin Json.nestingLimit value := by
  simp [ReadBackFromText, ReadBackWithin, Json.parse?_compact]

/-- With fewer levels than for its own text, a value is read back if these are enough for it. -/
theorem ReadBackFromText.within (readBack : ReadBackFromText V) {levels : Nat}
    (fewer : levels ≤ Json.nestingLimit) {value : V}
    (enough : ∀ form, valueToJson? value = some form → form.depth ≤ levels) :
    ReadBackWithin levels value := by
  intro form written
  have alone := readBackFromText_iff.mp readBack value form written
  rw [Json.within_of_depth_le ((enough form written).trans fewer)] at alone
  rw [Json.within_of_depth_le (enough form written), alone]

theorem eq_ofString_of_term {term : Samples.Term} {form : Json}
    (written : valueToJson? term = some form) : form = .ofString term.text := by
  by_cases unstorable : term = .unstorable
  · simp [valueToJson?, unstorable] at written
  · simpa [valueToJson?, unstorable, eq_comm] using written

theorem readBackWithin_term (levels : Nat) (term : Samples.Term) : ReadBackWithin levels term := by
  intro form written
  simp [eq_ofString_of_term written, valueOfJson?]

theorem readBackFromText_configurations : ReadBackFromText Samples.Configurations := by
  refine readBackFromText_iff.mpr fun set form written => ?_
  obtain rfl : Json.ofStrings set.toList = form := Option.some.inj written
  rw [Json.nestingLimit, Json.within_ofStrings_succ]
  simp [valueOfJson?, Json.list?_ofStrings, Samples.Configurations.ofList_toList]

end Storable

namespace Checkpoint

variable {V : Type} [Storable V] {checkpoint : Checkpoint V}

/-- Each value is read back where a checkpoint holds it, inside two objects. -/
def ValuesReadBack (checkpoint : Checkpoint V) : Prop :=
  ∀ entry ∈ checkpoint.semantics.toList,
    Storable.ReadBackWithin (Json.nestingLimit - 2) entry.2

theorem valuesReadBack_of_depth (readBack : Storable.ReadBackFromText V)
    (enough : ∀ entry ∈ checkpoint.semantics.toList, ∀ form,
      valueToJson? entry.2 = some form → form.depth ≤ Json.nestingLimit - 2) :
    checkpoint.ValuesReadBack :=
  fun entry listed => readBack.within (Nat.sub_le _ _) (enough entry listed)

theorem entryToJson?_eq_some_iff {entry : StateId × V} {member : String × Json} :
    entryToJson? entry = some member ↔
      ∃ form, valueToJson? entry.2 = some form ∧ (entry.1, form) = member := by
  simp [entryToJson?, Option.bind_eq_some_iff]

theorem entryOfJson?_eq_some_iff {member : String × Json} {entry : StateId × V} :
    entryOfJson? member = some entry ↔
      ∃ value, valueOfJson? member.2 = some value ∧ (member.1, value) = entry := by
  simp [entryOfJson?, Option.bind_eq_some_iff]

theorem entryOfJson?_within_iff {levels : Nat} {entry : StateId × V} :
    (∀ member, entryToJson? entry = some member →
      entryOfJson? (member.1, member.2.within levels) = some entry) ↔
      Storable.ReadBackWithin levels entry.2 := by
  simp only [entryToJson?_eq_some_iff, entryOfJson?_eq_some_iff, Storable.ReadBackWithin]
  constructor
  · intro each form written
    obtain ⟨value, read, same⟩ := each _ ⟨form, written, rfl⟩
    rw [read, ← same]
  · rintro readBack member ⟨form, written, rfl⟩
    exact ⟨_, readBack form written, rfl⟩

/-- Values are read back if and only if each is read back inside the object that holds them. -/
theorem valuesOfJson?_of_written {semantics : StateMap V} {json : Json} {levels : Nat}
    (written : valuesToJson? semantics = some json) :
    valuesOfJson? (json.within (levels + 1)) = some semantics ↔
      ∀ entry ∈ semantics.toList, Storable.ReadBackWithin levels entry.2 := by
  obtain ⟨members, mapped, isJson⟩ := Option.bind_eq_some_iff.mp written
  obtain rfl : Json.ofMembers members = json := Option.some.inj isJson
  let read (member : String × Json) : Option (StateId × V) :=
    entryOfJson? (member.1, member.2.within levels)
  have unfolded : valuesOfJson? ((Json.ofMembers members).within (levels + 1)) =
      (members.mapM read).map fun entries => .ofList entries := by
    simp [valuesOfJson?, List.mapM_map, read, Function.comp_def, Option.map_eq_bind]
  have entries : members.mapM read = some semantics.toList ↔
      ∀ entry ∈ semantics.toList, Storable.ReadBackWithin levels entry.2 := by
    rw [mapM_read_back_iff mapped]
    simp only [read, entryOfJson?_within_iff]
  rw [unfolded, Option.map_eq_some_iff, ← entries]
  constructor
  · rintro ⟨found, reads, same⟩
    -- Reading keeps the names of the members, and so did writing them.
    have names : members.map Prod.fst = semantics.toList.map Prod.fst := by
      refine map_eq_of_mapM_eq_some mapped fun entry member isMember => ?_
      obtain ⟨form, -, rfl⟩ := entryToJson?_eq_some_iff.mp isMember
      rfl
    have keys : found.map Prod.fst = members.map Prod.fst := by
      refine map_eq_of_mapM_eq_some reads fun member entry isEntry => ?_
      obtain ⟨value, -, rfl⟩ := entryOfJson?_eq_some_iff.mp isEntry
      rfl
    rw [reads, StateMap.eq_toList_of_ofList (keys.trans names) same]
  · intro reads
    exact ⟨_, reads, StateMap.ofList_toList semantics⟩

theorem toJson?_eq_some_iff {json : Json} :
    checkpoint.toJson? = some json ↔
      ∃ semantics, valuesToJson? checkpoint.semantics = some semantics ∧
        json = .ofMembers
          [("version", .natural checkpoint.version.toNat), ("id", .ofString checkpoint.id),
            ("created_at", .ofString checkpoint.createdAt.text),
            ("machine", .ofString checkpoint.machine),
            ("iterations", .natural checkpoint.iterations.toNat), ("semantics", semantics)] := by
  simp only [toJson?, Option.bind_eq_bind, Option.bind_eq_some_iff, Option.pure_def,
    Option.some.injEq]
  exact exists_congr fun _ => and_congr_right fun _ => eq_comm

/-- Whatever its version, a checkpoint is read from a value that has the fields of its form if and
only if its values are read back inside the two objects around them. -/
theorem ofJson?_of_record (lower : 0 ≤ checkpoint.createdAt.date.year)
    (upper : checkpoint.createdAt.date.year ≤ 9999)
    {fields : List (String × Json)} (written : checkpoint.toJson? = some (.ofMembers fields))
    {json : Json} (recorded : json.record? (fields.map Prod.fst) = some (fields.map Prod.snd))
    {levels : Nat} :
    ofJson? (json.within (levels + 2)) = some checkpoint ↔
      ∀ entry ∈ checkpoint.semantics.toList, Storable.ReadBackWithin levels entry.2 := by
  obtain ⟨semantics, valuesWritten, same⟩ := toJson?_eq_some_iff.mp written
  obtain rfl := Json.ofMembers_injective same
  have seen := Json.record?_within _ (levels + 1) json |>.trans (congrArg (Option.map _) recorded)
  simp only [List.map_cons, List.map_nil, Option.map_some, Json.within_natural,
    Json.within_ofString] at seen
  rw [← valuesOfJson?_of_written valuesWritten, ofJson?, seen]
  cases checkpoint
  simp [Json.natural?_natural (UInt32.toNat_lt_size _),
    Json.natural?_natural (UInt64.toNat_lt_size _), Instant.ofText?_text lower upper,
    Option.bind_eq_some_iff]

theorem ofJson?_of_written (lower : 0 ≤ checkpoint.createdAt.date.year)
    (upper : checkpoint.createdAt.date.year ≤ 9999) {json : Json}
    (written : checkpoint.toJson? = some json) :
    ofJson? (json.within Json.nestingLimit) = some checkpoint ↔ checkpoint.ValuesReadBack := by
  obtain ⟨semantics, -, rfl⟩ := toJson?_eq_some_iff.mp written
  exact ofJson?_of_record lower upper written (Json.record?_ofMembers (by simp))

theorem toText_eq_ok_iff {text : String} :
    checkpoint.toText = .ok text ↔
      ∃ json, checkpoint.toJson? = some json ∧ json.indented = text := by
  unfold toText
  cases checkpoint.toJson? <;> simp

/-- Writing fails only for want of a form for one of the values. -/
theorem exists_toText_iff :
    (∃ text, checkpoint.toText = .ok text) ↔
      ∀ entry ∈ checkpoint.semantics.toList, ∃ json, valueToJson? entry.2 = some json := by
  have wholly : (∃ text, checkpoint.toText = .ok text) ↔
      ∃ members, checkpoint.semantics.toList.mapM entryToJson? = some members := by
    simp only [toText_eq_ok_iff, toJson?, valuesToJson?, Option.bind_eq_bind,
      Option.bind_eq_some_iff, Option.pure_def]
    constructor
    · rintro ⟨_, _, ⟨_, ⟨members, mapped, -⟩, -⟩, -⟩
      exact ⟨members, mapped⟩
    · rintro ⟨members, mapped⟩
      exact ⟨_, _, ⟨_, ⟨members, mapped, rfl⟩, rfl⟩, rfl⟩
  rw [wholly, exists_mapM_eq_some_iff]
  refine forall₂_congr fun entry _ => ?_
  cases form : valueToJson? entry.2 <;> simp [entryToJson?, form]

theorem ofText_of_isText {text : String} {json : Json} (isText : Json.IsText text json) :
    (ofText text : Except _ (Checkpoint V)) =
      match ofJson? (json.within Json.nestingLimit) with
      | some checkpoint => checkpoint.checkVersion
      | none => .error (.unreadable "the text is no checkpoint") := by
  rw [ofText, Json.parse?_of_isText isText]
  rfl

theorem ofText_eq_ok_iff {text : String} {json : Json} (isText : Json.IsText text json) :
    ofText text = .ok checkpoint ↔
      ofJson? (json.within Json.nestingLimit) = some checkpoint ∧ checkpoint.version = 1 := by
  rw [ofText_of_isText isText]
  cases (ofJson? (json.within Json.nestingLimit) : Option (Checkpoint V)) with
  | none => simp
  | some found =>
      rw [Option.some.injEq]
      exact checkVersion_eq_ok_iff.trans (and_congr_right fun same => by rw [same])

end Checkpoint
end ReactiveReach
