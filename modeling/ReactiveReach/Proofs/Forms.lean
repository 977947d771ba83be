import Mathlib.Data.List.Forall2
import ReactiveReach.Json.Basic
import ReactiveReach.State

/-!
# Reading back forms

What is written member by member is read back member by member, a map from its entries, and a
record from a JSON object that names each of its fields once.
-/

namespace ReactiveReach

variable {α β : Type}

theorem mapM_eq_some_iff {write : α → Option β} {members : List α} {forms : List β} :
    members.mapM write = some forms ↔
      List.Forall₂ (fun member form => write member = some form) members forms := by
  induction members generalizing forms with
  | nil => cases forms <;> simp
  | cons member members ih =>
      simp only [List.mapM_cons, Option.bind_eq_bind, Option.bind_eq_some_iff, Option.pure_def,
        Option.some.injEq, ih]
      constructor
      · rintro ⟨form, first, forms, rest, rfl⟩
        exact .cons first rest
      · rintro (_ | ⟨first, rest⟩)
        exact ⟨_, first, _, rest, rfl⟩

/-- What is written of every member is read back if and only if it is read back of each. -/
theorem mapM_read_back_iff {write : α → Option β} {read : β → Option α} {members : List α}
    {forms : List β} (written : members.mapM write = some forms) :
    forms.mapM read = some members ↔
      ∀ member ∈ members, ∀ form, write member = some form → read form = some member := by
  rw [mapM_eq_some_iff] at written ⊢
  induction written with
  | nil => simp
  | cons first rest ih =>
      rw [List.forall₂_cons, List.forall_mem_cons, ih]
      simp [first]

/-- What is written under the keys of the members has these keys. -/
theorem map_eq_of_mapM_eq_some {κ : Type} {write : α → Option β} {key : α → κ} {formKey : β → κ}
    {members : List α} {forms : List β} (written : members.mapM write = some forms)
    (keeps : ∀ member form, write member = some form → formKey form = key member) :
    forms.map formKey = members.map key := by
  rw [mapM_eq_some_iff] at written
  induction written with
  | nil => rfl
  | cons first rest ih => rw [List.map_cons, List.map_cons, keeps _ _ first, ih]

theorem mapM_eq_some_map {read : α → Option β} (view : α → β) {members : List α}
    (reads : ∀ member ∈ members, read member = some (view member)) :
    members.mapM read = some (members.map view) := by
  induction members with
  | nil => rfl
  | cons member members ih =>
      rw [List.forall_mem_cons] at reads
      simp [reads.1, ih reads.2]

theorem mapM_map_some {γ : Type} (read : α → Option β) (view : β → γ) (members : List α) :
    members.mapM (fun member => (read member).map view) =
      (members.mapM read).map (List.map view) := by
  induction members with
  | nil => rfl
  | cons member members ih =>
      rw [List.mapM_cons, List.mapM_cons, ih]
      cases read member with
      | none => rfl
      | some value => cases members.mapM read <;> rfl

theorem exists_mapM_eq_some_iff {write : α → Option β} {members : List α} :
    (∃ forms, members.mapM write = some forms) ↔
      ∀ member ∈ members, ∃ form, write member = some form := by
  induction members with
  | nil => simp
  | cons member members ih =>
      simp only [List.forall_mem_cons, ← ih, List.mapM_cons, Option.bind_eq_bind,
        Option.bind_eq_some_iff, Option.pure_def, Option.some.injEq]
      constructor
      · rintro ⟨_, form, first, forms, rest, -⟩
        exact ⟨⟨form, first⟩, forms, rest⟩
      · rintro ⟨⟨form, first⟩, forms, rest⟩
        exact ⟨form :: forms, form, first, forms, rest, rfl⟩

/-- A map is read back from its entries. -/
theorem StateMap.ofList_toList (map : StateMap α) : Std.ExtTreeMap.ofList map.toList = map := by
  refine Std.ExtTreeMap.ext_getElem? fun state => ?_
  cases found : map[state]? with
  | some value =>
      have entry := Std.ExtTreeMap.mem_toList_iff_getElem?_eq_some.mpr found
      exact Std.ExtTreeMap.getElem?_ofList_of_mem Std.ReflCmp.compare_self
        map.distinct_keys_toList entry
  | none =>
      refine Std.ExtTreeMap.getElem?_ofList_of_contains_eq_false ?_
      have absent : state ∉ map := by simp [Std.ExtTreeMap.mem_iff_isSome_getElem?, found]
      rw [Std.ExtTreeMap.map_fst_toList_eq_keys]
      simpa using absent

/-- A map that is built from entries under its own keys has just these entries. -/
theorem StateMap.eq_toList_of_ofList {map : StateMap α} {entries : List (StateId × α)}
    (keys : entries.map Prod.fst = map.toList.map Prod.fst)
    (same : Std.ExtTreeMap.ofList entries = map) : entries = map.toList := by
  have distinct : entries.Pairwise fun entry other => ¬compare entry.1 other.1 = .eq := by
    have pairwise : (map.toList.map Prod.fst).Pairwise fun key other => ¬compare key other = .eq :=
      List.pairwise_map.mpr map.distinct_keys_toList
    rw [← keys] at pairwise
    exact List.pairwise_map.mp pairwise
  have found : ∀ entry ∈ entries, map[entry.1]? = some entry.2 := by
    intro entry isEntry
    rw [← same]
    exact Std.ExtTreeMap.getElem?_ofList_of_mem Std.ReflCmp.compare_self distinct isEntry
  have listed : ∀ entry ∈ map.toList, map[entry.1]? = some entry.2 := fun entry isEntry =>
    Std.ExtTreeMap.mem_toList_iff_getElem?_eq_some.mp isEntry
  have byKey {list : List (StateId × α)} (each : ∀ entry ∈ list, map[entry.1]? = some entry.2) :
      list.map (fun entry => (entry.1, some entry.2)) =
        (list.map Prod.fst).map fun key => (key, map[key]?) := by
    rw [List.map_map]
    exact List.map_congr_left fun entry isEntry => by simp [each entry isEntry]
  have alike : entries.map (fun entry => (entry.1, some entry.2)) =
      map.toList.map fun entry => (entry.1, some entry.2) := by
    rw [byKey found, byKey listed, keys]
  refine List.map_injective_iff.mpr (fun first second sameEntry => ?_) alike
  simpa [Prod.ext_iff] using sameEntry

namespace Json

@[simp]
theorem string?_ofString (content : String) : (ofString content).string? = some content :=
  rfl

theorem natural?_natural {limit value : Nat} (below : value < limit) :
    (natural value).natural? limit = some value := by
  simp [natural?, below]

@[simp]
theorem members?_ofMembers (members : List (String × Json)) :
    (ofMembers members).members? = some members := by
  have same : members.mapM (fun member => some member) = some (members.map id) :=
    mapM_eq_some_map id fun _ _ => rfl
  rw [List.map_id] at same
  rwa [ofMembers, members?, List.mapM_map]

theorem list?_array {read : Json → Option α} {view : α → Json} (members : List α)
    (readBack : ∀ member ∈ members, read (view member) = some member) :
    (array (members.map view)).list? read = some members := by
  have same : members.mapM (fun member => read (view member)) = some (members.map id) :=
    mapM_eq_some_map id readBack
  rw [List.map_id] at same
  rwa [list?, items?, Option.bind_eq_bind, Option.bind_some, List.mapM_map]

theorem list?_ofStrings (contents : List String) :
    (ofStrings contents).list? string? = some contents :=
  list?_array contents fun _ _ => rfl

theorem ofMembers_injective : Function.Injective ofMembers := fun first second same => by
  simpa using congrArg members? same

theorem eq_ofMembers_of_members? {json : Json} {members : List (String × Json)}
    (named : json.members? = some members) : json = ofMembers members := by
  cases json with
  | object all =>
      have each : List.Forall₂ (fun member entry => member = (some entry.1, entry.2)) all members :=
        (mapM_eq_some_iff.mp named).imp fun member entry isEntry => by
          obtain ⟨name, isName, rfl⟩ := Option.map_eq_some_iff.mp isEntry
          rw [← isName]
      rwa [ofMembers, object.injEq, ← List.forall₂_eq_eq_eq, List.forall₂_map_right_iff]
  | null | bool | natural | otherNumber | text | array => cases named

theorem valuesOf_eq_map_filter (name : String) (members : List (String × Json)) :
    valuesOf name members = (members.filter (·.1 == name)).map Prod.snd := by
  induction members with
  | nil => rfl
  | cons member members ih =>
      by_cases isNamed : member.1 = name <;> simpa [valuesOf, isNamed] using ih

/-- A record is read from an object that has each of its fields once, whatever else it has. -/
theorem record?_of_fields {fields members : List (String × Json)}
    (once : ∀ field ∈ fields, members.filter (·.1 == field.1) = [field]) :
    (ofMembers members).record? (fields.map Prod.fst) = some (fields.map Prod.snd) := by
  have found : (fields.map Prod.fst).mapM (only? · members) = some (fields.map Prod.snd) := by
    rw [List.mapM_map]
    refine mapM_eq_some_map Prod.snd fun field isField => ?_
    simp [only?, valuesOf_eq_map_filter, once field isField]
  have named := members?_ofMembers members
  change (do (fields.map Prod.fst).mapM (only? · (← (ofMembers members).members?))) = _
  rw [named, Option.bind_eq_bind, Option.bind_some, found]

theorem filter_name_of_mem {members : List (String × Json)} {field : String × Json}
    (distinct : (members.map Prod.fst).Nodup) (isMember : field ∈ members) :
    members.filter (·.1 == field.1) = [field] := by
  induction members with
  | nil => cases isMember
  | cons first members ih =>
      obtain ⟨notAgain, distinct⟩ := List.nodup_cons.mp distinct
      rcases List.mem_cons.mp isMember with rfl | later
      · have others : members.filter (·.1 == field.1) = [] := by
          refine List.filter_eq_nil_iff.mpr fun other isOther same => notAgain ?_
          exact List.mem_map.mpr ⟨other, isOther, beq_iff_eq.mp same⟩
        simp [others]
      · have different : first.1 ≠ field.1 := fun same =>
          notAgain (List.mem_map.mpr ⟨field, later, same.symm⟩)
        simpa [different] using ih distinct later

theorem record?_ofMembers {members : List (String × Json)}
    (distinct : (members.map Prod.fst).Nodup) :
    (ofMembers members).record? (members.map Prod.fst) = some (members.map Prod.snd) :=
  record?_of_fields fun _ isMember => filter_name_of_mem distinct isMember

theorem exists_named_of_record? {names : List String} {members : List (Option String × Json)}
    {values : List Json} (recorded : (object members).record? names = some values) :
    ∃ named : List (String × Json), members = named.map (fun member => (some member.1, member.2)) ∧
      names.mapM (only? · named) = some values := by
  obtain ⟨named, areNamed, found⟩ := Option.bind_eq_some_iff.mp recorded
  exact ⟨named, object.inj (eq_ofMembers_of_members? areNamed), found⟩

/-- No record is read from an object that lacks a field or repeats one. -/
theorem record?_eq_none {names : List String} {members : List (Option String × Json)}
    {name : String} (isField : name ∈ names)
    (notOnce : (members.filter (·.1 == some name)).length ≠ 1) :
    (object members).record? names = none := by
  refine Option.eq_none_iff_forall_ne_some.mpr fun values recorded => notOnce ?_
  obtain ⟨named, rfl, found⟩ := exists_named_of_record? recorded
  obtain ⟨value, only⟩ := exists_mapM_eq_some_iff.mp ⟨values, found⟩ name isField
  rw [only?, valuesOf_eq_map_filter] at only
  rw [List.filter_map, List.length_map]
  split at only
  · rename_i single
    simpa [Function.comp_def] using congrArg List.length single
  · cases only

/-- No record is read from an object with a member whose name is no text. -/
theorem record?_eq_none_of_nameless {names : List String} {members : List (Option String × Json)}
    {value : Json} (nameless : (none, value) ∈ members) :
    (object members).record? names = none := by
  refine Option.eq_none_iff_forall_ne_some.mpr fun values recorded => ?_
  obtain ⟨named, rfl, -⟩ := exists_named_of_record? recorded
  simp at nameless

end Json
end ReactiveReach
