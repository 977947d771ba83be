import ReactiveReach.Proofs.Forms

/-!
# Nesting

A reader sees all of a value that is not nested deeper than the levels it has left. To open an array
or object takes one level; what it holds is seen with the others.
-/

namespace ReactiveReach.Json

@[simp]
theorem within_null (levels : Nat) : null.within levels = null := by
  cases levels <;> rfl

@[simp]
theorem within_bool (levels : Nat) (truth : Bool) : (bool truth).within levels = bool truth := by
  cases levels <;> rfl

@[simp]
theorem within_natural (levels value : Nat) : (natural value).within levels = natural value := by
  cases levels <;> rfl

@[simp]
theorem within_otherNumber (levels : Nat) (number : OtherNumber) :
    (otherNumber number).within levels = otherNumber number := by
  cases levels <;> rfl

@[simp]
theorem within_text (levels : Nat) (content : Option String) :
    (text content).within levels = text content := by
  cases levels <;> rfl

@[simp]
theorem within_ofString (levels : Nat) (content : String) :
    (ofString content).within levels = ofString content :=
  within_text levels content

@[simp]
theorem within_array_succ (levels : Nat) (items : List Json) :
    (array items).within (levels + 1) = array (items.map (within levels)) :=
  rfl

@[simp]
theorem within_object_succ (levels : Nat) (members : List (Option String × Json)) :
    (object members).within (levels + 1) =
      object (members.map fun member => (member.1, member.2.within levels)) :=
  rfl

@[simp]
theorem within_ofMembers_succ (levels : Nat) (members : List (String × Json)) :
    (ofMembers members).within (levels + 1) =
      ofMembers (members.map fun member => (member.1, member.2.within levels)) := by
  simp [ofMembers]

@[simp]
theorem within_ofStrings_succ (levels : Nat) (contents : List String) :
    (ofStrings contents).within (levels + 1) = ofStrings contents := by
  simp [ofStrings]

theorem members?_within (levels : Nat) (json : Json) :
    (json.within (levels + 1)).members? =
      json.members?.map (List.map fun member => (member.1, member.2.within levels)) := by
  cases json with
  | object members =>
      rw [within_object_succ, members?, members?, List.mapM_map, ← mapM_map_some]
      refine congrArg (members.mapM ·) (funext fun member => ?_)
      rw [Option.map_map]
      rfl
  | null | bool | natural | otherNumber | text | array => simp [members?]

theorem only?_map (name : String) (view : Json → Json) (members : List (String × Json)) :
    only? name (members.map fun member => (member.1, view member.2)) =
      (only? name members).map view := by
  have values : valuesOf name (members.map fun member => (member.1, view member.2)) =
      (valuesOf name members).map view := by
    simp [valuesOf_eq_map_filter, List.filter_map, Function.comp_def]
  rw [only?, only?, values]
  rcases valuesOf name members with _ | ⟨value, _ | ⟨other, rest⟩⟩ <;> rfl

/-- What a record is read from takes one level. -/
theorem record?_within (names : List String) (levels : Nat) (json : Json) :
    (json.within (levels + 1)).record? names =
      (json.record? names).map (List.map (within levels)) := by
  cases json with
  | array items =>
      by_cases complete : items.length = names.length <;> simp [record?, complete]
  | object members =>
      have fromMembers (members : List (Option String × Json)) : (object members).record? names =
          (object members).members?.bind fun named => names.mapM (only? · named) := rfl
      rw [within_object_succ, fromMembers, ← within_object_succ, members?_within, fromMembers]
      cases (object members).members? with
      | none => rfl
      | some named => simp only [Option.map_some, Option.bind_some, only?_map, mapM_map_some]
  | null | bool | natural | otherNumber | text => simp [record?, members?]

/-! ## Depth -/

mutual

/-- How many arrays and objects stand inside each other where the value is deepest. -/
def depth : Json → Nat
  | array items => itemsDepth items + 1
  | object members => membersDepth members + 1
  | _ => 0

def itemsDepth : List Json → Nat
  | [] => 0
  | item :: items => max item.depth (itemsDepth items)

def membersDepth : List (Option String × Json) → Nat
  | [] => 0
  | (_, value) :: members => max value.depth (membersDepth members)

end

theorem depth_ofStrings (contents : List String) : (ofStrings contents).depth = 1 := by
  have items : itemsDepth (contents.map ofString) = 0 := by
    induction contents with
    | nil => rfl
    | cons content contents ih => rw [List.map_cons, itemsDepth, ih]; rfl
  rw [ofStrings, depth, items]

mutual

/-- Nothing is hidden from a reader that has a level left for each array and object. -/
theorem within_of_depth_le {levels : Nat} {json : Json} (enough : json.depth ≤ levels) :
    json.within levels = json := by
  match json, levels with
  | null, _ | bool _, _ | natural _, _ | otherNumber _, _ | text _, _ => simp
  | array items, 0 | object members, 0 => simp [depth] at enough
  | array items, levels + 1 =>
      have itemsEnough : itemsDepth items ≤ levels := by simpa [depth] using enough
      rw [within_array_succ, map_within_of_depth_le itemsEnough]
  | object members, levels + 1 =>
      have membersEnough : membersDepth members ≤ levels := by simpa [depth] using enough
      rw [within_object_succ, members_within_of_depth_le membersEnough]

theorem map_within_of_depth_le {levels : Nat} {items : List Json}
    (enough : itemsDepth items ≤ levels) : items.map (within levels) = items := by
  match items with
  | [] => rfl
  | item :: items =>
      rw [itemsDepth, Nat.max_le] at enough
      rw [List.map_cons, within_of_depth_le enough.1, map_within_of_depth_le enough.2]

theorem members_within_of_depth_le {levels : Nat} {members : List (Option String × Json)}
    (enough : membersDepth members ≤ levels) :
    members.map (fun member => (member.1, member.2.within levels)) = members := by
  match members with
  | [] => rfl
  | (name, value) :: members =>
      rw [membersDepth, Nat.max_le] at enough
      rw [List.map_cons, within_of_depth_le enough.1, members_within_of_depth_le enough.2]

end

end ReactiveReach.Json
