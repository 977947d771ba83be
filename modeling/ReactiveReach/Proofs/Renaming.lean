import Mathlib.Data.Set.Function
import ReactiveReach.Proofs.Specification

/-!
# Machines under other names

The ids of states only tell them apart. A machine whose states are renamed, so that no
two ids that it mentions become one, has the same defects under the new names, in the
same order, and is well-formed if the machine is. Values and zones are kept in maps
ordered by id, and renaming changes that order, so maps are compared entry by entry.
-/

namespace ReactiveReach

variable {V P E α : Type}

section Renamed

variable (rename : StateId → StateId)

def State.renamed (state : State) : State := state.withId (rename state.id)

def Transition.renamed (transition : Transition P) : Transition P :=
  { transition with
    source := rename transition.source
    target := rename transition.target }

/-- The same entries under the new names. -/
def StateMap.renamed (map : StateMap α) : StateMap α :=
  .ofList (map.toList.map fun (id, entry) => (rename id, entry))

def Violation.renamed : Violation → Violation
  | missingSeed => missingSeed
  | multipleSeeds seeds => multipleSeeds (seeds.map rename)
  | duplicateState id => duplicateState (rename id)
  | unknownSource transition state => unknownSource transition (rename state)
  | unknownTarget transition state => unknownTarget transition (rename state)

def Fault.renamed : Fault E → Fault E
  | absent state => absent (rename state)
  | operation cause => operation cause

def SolveError.renamed : SolveError E → SolveError E
  | malformed machine violations => malformed machine (violations.map (·.renamed rename))
  | incomplete machine missing unexpected =>
    incomplete machine (missing.map rename) (unexpected.map rename)
  | foreignCheckpoint machine checkpoint => foreignCheckpoint machine checkpoint
  | failed fault => failed (fault.renamed rename)

def PassRecord.renamed (entry : PassRecord) : PassRecord :=
  ⟨entry.iteration, entry.changed.map rename⟩

def History.renamed (history : History) : History :=
  .ofList (history.toList.map (·.renamed rename))

def Solution.renamed (solution : Solution V P) : Solution V P where
  semantics := StateMap.renamed rename solution.semantics
  zones := StateMap.renamed rename solution.zones
  iterations := solution.iterations
  convergence := solution.convergence
  history := solution.history.renamed rename

end Renamed

/-- The ids of the states, and those between which transitions lead. -/
def Machine.mentioned (machine : Machine V P E) : Set StateId :=
  { id | machine.knows id = true ∨
    ∃ transition ∈ machine.transitions, transition.source = id ∨ transition.target = id }

/-- `second` is `first` under new names. Its states are listed in the same places, and its
exit zones are those of the states that they were. -/
structure Machine.Renames (rename : StateId → StateId) (first second : Machine V P E) :
    Prop where
  injective : Set.InjOn rename first.mentioned
  name : second.name = first.name
  assembly : second.assembly = first.assembly
  states : second.states = first.states.map (·.renamed rename)
  transitions : second.transitions = first.transitions.map (·.renamed rename)
  exits : ∀ state ∈ first.states, ∀ value,
    second.exits (state.renamed rename) value = first.exits state value

variable {rename : StateId → StateId}

namespace StateMap

variable {map : StateMap α} {id : StateId}

theorem mem_of_mem_toList {entry : StateId × α} (listed : entry ∈ map.toList) : entry.1 ∈ map :=
  (Std.ExtTreeMap.getElem?_eq_some_iff.mp
    (Std.ExtTreeMap.mem_toList_iff_getElem?_eq_some.mp listed)).1

theorem renamed_empty : StateMap.renamed rename (∅ : StateMap α) = ∅ :=
  rfl

/-- No entry is found under what is no new name. -/
theorem getElem?_renamed_eq_none (unused : ∀ key ∈ map, rename key ≠ id) :
    (StateMap.renamed rename map)[id]? = none := by
  apply Std.ExtTreeMap.getElem?_ofList_of_contains_eq_false
  rw [List.contains_eq_mem, decide_eq_false_iff_not, List.map_map]
  intro listed
  obtain ⟨entry, entryMem, same⟩ := List.mem_map.mp listed
  exact unused entry.1 (mem_of_mem_toList entryMem) same

/-- An entry is found under the new name of its id. -/
theorem getElem?_renamed (apart : Set.InjOn rename { key | key ∈ map ∨ key = id }) :
    (StateMap.renamed rename map)[rename id]? = map[id]? := by
  cases found : map[id]? with
  | some entry =>
      refine Std.ExtTreeMap.getElem?_ofList_of_mem Std.ReflCmp.compare_self ?_
        (List.mem_map_of_mem (f := fun (id, entry) => (rename id, entry))
          (Std.ExtTreeMap.mem_toList_iff_getElem?_eq_some.mpr found))
      rw [List.pairwise_map]
      refine Std.ExtTreeMap.distinct_keys_toList.imp_of_mem fun listed otherListed distinct => ?_
      rw [Std.LawfulEqCmp.compare_eq_iff_eq] at distinct ⊢
      intro same
      exact distinct (apart (.inl (mem_of_mem_toList listed)) (.inl (mem_of_mem_toList otherListed))
        same)
  | none =>
      refine getElem?_renamed_eq_none fun key present same => ?_
      obtain rfl : key = id := apart (.inl present) (.inr rfl) same
      rw [Std.ExtTreeMap.getElem?_eq_some_getElem present] at found
      cases found

end StateMap

theorem count_map_renamed {ids : List StateId} {id : StateId}
    (apart : Set.InjOn rename { key | key ∈ ids ∨ key = id }) :
    (ids.map rename).count (rename id) = ids.count id := by
  induction ids with
  | nil => rfl
  | cons first rest ih =>
      have apartRest : Set.InjOn rename { key | key ∈ rest ∨ key = id } :=
        apart.mono fun key listed => listed.imp_left (List.mem_cons_of_mem first)
      have same : rename first = rename id ↔ first = id :=
        apart.eq_iff (.inl List.mem_cons_self) (.inr rfl)
      simp only [List.map_cons, List.count_cons, beq_iff_eq, same, ih apartRest]

/-- The same ids repeat, in the same places, under the new names. -/
theorem repeatedIds_map_renamed {seen ids : List StateId}
    (apart : Set.InjOn rename { key | key ∈ seen ∨ key ∈ ids }) :
    repeatedIds (seen.map rename) (ids.map rename) = (repeatedIds seen ids).map rename := by
  induction ids generalizing seen with
  | nil => rfl
  | cons first rest ih =>
      have counted : (seen.map rename).count (rename first) = seen.count first := by
        refine count_map_renamed (apart.mono ?_)
        rintro key (listed | rfl)
        · exact .inl listed
        · exact .inr List.mem_cons_self
      have apartRest : Set.InjOn rename { key | key ∈ first :: seen ∨ key ∈ rest } := by
        refine apart.mono ?_
        rintro key (listed | listed)
        · rcases List.mem_cons.mp listed with rfl | listed
          · exact .inr List.mem_cons_self
          · exact .inl listed
        · exact .inr (List.mem_cons_of_mem first listed)
      have later := ih apartRest
      rw [List.map_cons] at later
      simp only [List.map_cons, repeatedIds, counted, later]
      split <;> rfl

namespace Machine

variable {first second : Machine V P E}

theorem mentioned_of_mem {state : State} (member : state ∈ first.states) :
    state.id ∈ first.mentioned :=
  .inl (knows_iff.mpr ⟨state, member, rfl⟩)

theorem source_mentioned {transition : Transition P} (member : transition ∈ first.transitions) :
    transition.source ∈ first.mentioned :=
  .inr ⟨transition, member, .inl rfl⟩

theorem target_mentioned {transition : Transition P} (member : transition ∈ first.transitions) :
    transition.target ∈ first.mentioned :=
  .inr ⟨transition, member, .inr rfl⟩

namespace Renames

theorem seeds_eq (renames : first.Renames rename second) :
    second.seeds = first.seeds.map rename := by
  simp only [seeds, renames.states, List.filter_map, List.map_map]
  rfl

theorem knows_eq (renames : first.Renames rename second) {id : StateId}
    (mentioned : id ∈ first.mentioned) : second.knows (rename id) = first.knows id := by
  rw [Bool.eq_iff_iff, knows_iff, knows_iff, renames.states]
  constructor
  · rintro ⟨image, imageMem, sameId⟩
    obtain ⟨state, member, rfl⟩ := List.mem_map.mp imageMem
    exact ⟨state, member, renames.injective (mentioned_of_mem member) mentioned sameId⟩
  · rintro ⟨state, member, rfl⟩
    exact ⟨state.renamed rename, List.mem_map_of_mem member, rfl⟩

theorem seedViolations_eq (renames : first.Renames rename second) :
    second.seedViolations = first.seedViolations.map (·.renamed rename) := by
  rcases listed : first.seeds with _ | ⟨seed, _ | ⟨another, others⟩⟩ <;>
    simp [seedViolations, renames.seeds_eq, listed, Violation.renamed]

theorem repeatedIds_eq (renames : first.Renames rename second) :
    repeatedIds [] (second.states.map (·.id)) =
      (repeatedIds [] (first.states.map (·.id))).map rename := by
  have ids : second.states.map (·.id) = (first.states.map (·.id)).map rename := by
    rw [renames.states, List.map_map, List.map_map]
    rfl
  have apart : Set.InjOn rename
      { key | key ∈ ([] : List StateId) ∨ key ∈ first.states.map (·.id) } := by
    refine renames.injective.mono ?_
    rintro key (listed | listed)
    · cases listed
    · obtain ⟨state, member, rfl⟩ := List.mem_map.mp listed
      exact mentioned_of_mem member
  rw [ids]
  exact repeatedIds_map_renamed apart

theorem endpointViolations_eq (renames : first.Renames rename second) {number : Nat}
    {transition : Transition P} (member : transition ∈ first.transitions) :
    second.endpointViolations number (transition.renamed rename) =
      (first.endpointViolations number transition).map (·.renamed rename) := by
  have source := renames.knows_eq (source_mentioned member)
  have target := renames.knows_eq (target_mentioned member)
  simp only [endpointViolations, Transition.renamed, source, target, List.map_append]
  congr 1 <;> split <;> rfl

/-- The same defects are found, in the same order, under the new names. -/
theorem violations_eq (renames : first.Renames rename second) :
    second.violations = first.violations.map (·.renamed rename) := by
  have repeated : (repeatedIds [] (second.states.map (·.id))).map Violation.duplicateState =
      ((repeatedIds [] (first.states.map (·.id))).map Violation.duplicateState).map
        (·.renamed rename) := by
    rw [renames.repeatedIds_eq, List.map_map, List.map_map]
    rfl
  have endpoints : (second.transitions.zipIdx.flatMap fun edge =>
        second.endpointViolations edge.2 edge.1) =
      (first.transitions.zipIdx.flatMap fun edge =>
        first.endpointViolations edge.2 edge.1).map (·.renamed rename) := by
    rw [renames.transitions, List.zipIdx_map, List.flatMap_map, List.map_flatMap]
    refine List.flatMap_congr fun edge listed => ?_
    exact renames.endpointViolations_eq (List.fst_mem_of_mem_zipIdx listed)
  rw [violations, violations, List.map_append, List.map_append, renames.seedViolations_eq, repeated]
  exact congrArg _ endpoints

theorem wellFormed_iff (renames : first.Renames rename second) :
    second.WellFormed ↔ first.WellFormed := by
  rw [← violations_eq_nil_iff, ← violations_eq_nil_iff, renames.violations_eq, List.map_eq_nil_iff]

end Renames
end Machine
end ReactiveReach
