import Mathlib.Data.List.Nodup
import ReactiveReach.Solve

/-!
# Accepted machines

The list of violations is empty exactly for the well-formed machines. What an
analysis uses of such a machine is that its seed is the only one and that an id
belongs to one state, so that looking up the id of a state finds that state.
-/

namespace ReactiveReach

/-- What repeats among some ids that come after others occurs twice in all, and did not
do so before. -/
theorem mem_repeatedIds_iff {seen ids : List StateId} {id : StateId} :
    id ∈ repeatedIds seen ids ↔ seen.count id ≤ 1 ∧ 2 ≤ seen.count id + ids.count id := by
  induction ids generalizing seen with
  | nil =>
      simp only [repeatedIds, List.not_mem_nil, List.count_nil, false_iff]
      omega
  | cons first rest ih =>
      rw [repeatedIds]
      by_cases same : first = id
      · subst same
        split
        · simp only [List.mem_cons_self, List.count_cons_self, true_iff]
          omega
        · rw [ih, List.count_cons_self, List.count_cons_self]
          omega
      · have apart : id ≠ first := fun equal => same equal.symm
        have shown : id ∈ (if seen.count first = 1 then first :: repeatedIds (first :: seen) rest
            else repeatedIds (first :: seen) rest) ↔ id ∈ repeatedIds (first :: seen) rest := by
          split
          · simp [apart]
          · rfl
        rw [shown, ih, List.count_cons_of_ne same, List.count_cons_of_ne same]

theorem repeatedIds_eq_nil_iff {ids : List StateId} : repeatedIds [] ids = [] ↔ ids.Nodup := by
  rw [List.eq_nil_iff_forall_not_mem, List.nodup_iff_count_le_one]
  refine forall_congr' fun id => ?_
  rw [mem_repeatedIds_iff, List.count_nil]
  omega

/-- Picking some ids out of a list that has them all only reorders them. -/
theorem filter_mem_perm {ids listed : List StateId} (distinct : ids.Nodup)
    (listedDistinct : listed.Nodup) (known : listed ⊆ ids) :
    (ids.filter (· ∈ listed)).Perm listed := by
  apply (List.perm_ext_iff_of_nodup (distinct.filter _) listedDistinct).mpr
  intro id
  rw [List.mem_filter, decide_eq_true_eq]
  exact ⟨And.right, fun member => ⟨known member, member⟩⟩

namespace Machine

variable {V P E : Type} {machine : Machine V P E}

theorem knows_iff {id : StateId} :
    machine.knows id = true ↔ ∃ state ∈ machine.states, state.id = id := by
  simp [knows]

theorem knows_eq_false_iff {id : StateId} :
    machine.knows id = false ↔ ¬∃ state ∈ machine.states, state.id = id := by
  rw [← Bool.not_eq_true, knows_iff]

theorem length_seeds : machine.seeds.length = machine.states.countP (·.isSeed) := by
  rw [seeds, List.length_map, List.countP_eq_length_filter]

theorem seedViolations_eq_nil_iff :
    machine.seedViolations = [] ↔ ∃ seed, machine.seeds = [seed] := by
  rcases h : machine.seeds with _ | ⟨first, _ | ⟨second, rest⟩⟩ <;>
    simp [seedViolations, h]

theorem endpointViolations_eq_nil_iff {number : Nat} {transition : Transition P} :
    machine.endpointViolations number transition = [] ↔
      machine.knows transition.source = true ∧ machine.knows transition.target = true := by
  simp [endpointViolations]

/-- Nothing is reported exactly for the well-formed machines. -/
theorem violations_eq_nil_iff : machine.violations = [] ↔ machine.WellFormed := by
  have endpoints :
      (∀ transition number, (transition, number) ∈ machine.transitions.zipIdx →
        machine.knows transition.source = true ∧ machine.knows transition.target = true) ↔
        ∀ transition ∈ machine.transitions,
          machine.knows transition.source = true ∧
            machine.knows transition.target = true := by
    constructor
    · intro every transition member
      obtain ⟨number, bound, rfl⟩ := List.mem_iff_getElem.mp member
      exact every machine.transitions[number] number (by simp [List.mem_zipIdx_iff_getElem?])
    · intro every transition number member
      exact every transition (List.fst_mem_of_mem_zipIdx member)
  simp only [violations, List.append_eq_nil_iff, seedViolations_eq_nil_iff,
    List.map_eq_nil_iff, repeatedIds_eq_nil_iff, List.flatMap_eq_nil_iff,
    Prod.forall, endpointViolations_eq_nil_iff, endpoints]
  constructor
  · rintro ⟨⟨one, distinct⟩, known⟩
    exact ⟨one, distinct, fun transition member => (known transition member).1,
      fun transition member => (known transition member).2⟩
  · intro wellFormed
    exact ⟨⟨wellFormed.one_seed, wellFormed.distinct_ids⟩,
      fun transition member => ⟨wellFormed.sources_known transition member,
        wellFormed.targets_known transition member⟩⟩

theorem mem_recomputed {state : State} (member : state ∈ machine.states)
    (ordinary : state.isSeed = false) : state ∈ machine.recomputed :=
  List.mem_filter.mpr ⟨member, by simp [ordinary]⟩

namespace WellFormed

theorem eq_of_id_eq (wellFormed : machine.WellFormed) {first second : State}
    (firstMem : first ∈ machine.states) (secondMem : second ∈ machine.states)
    (sameId : first.id = second.id) : first = second :=
  List.inj_on_of_nodup_map wellFormed.distinct_ids firstMem secondMem sameId

theorem state?_id (wellFormed : machine.WellFormed) {state : State}
    (member : state ∈ machine.states) : machine.state? state.id = some state := by
  obtain ⟨found, lookup⟩ : ∃ found, machine.state? state.id = some found := by
    rw [← Option.isSome_iff_exists]
    simpa [state?] using ⟨state, member, rfl⟩
  have foundMem : found ∈ machine.states := List.mem_of_find?_eq_some lookup
  have foundId : found.id = state.id := by simpa using List.find?_some lookup
  rw [lookup, wellFormed.eq_of_id_eq foundMem member foundId]

theorem state?_eq_some_iff (wellFormed : machine.WellFormed) {id : StateId} {state : State} :
    machine.state? id = some state ↔ state ∈ machine.states ∧ state.id = id := by
  constructor
  · intro lookup
    exact ⟨List.mem_of_find?_eq_some lookup, by simpa using List.find?_some lookup⟩
  · rintro ⟨member, rfl⟩
    exact wellFormed.state?_id member

theorem exists_source (wellFormed : machine.WellFormed) {transition : Transition P}
    (member : transition ∈ machine.transitions) :
    ∃ source ∈ machine.states, source.id = transition.source ∧
      machine.state? transition.source = some source := by
  obtain ⟨source, sourceMem, sourceId⟩ :=
    knows_iff.mp (wellFormed.sources_known transition member)
  exact ⟨source, sourceMem, sourceId, sourceId ▸ wellFormed.state?_id sourceMem⟩

theorem exists_target (wellFormed : machine.WellFormed) {transition : Transition P}
    (member : transition ∈ machine.transitions) :
    ∃ target ∈ machine.states, target.id = transition.target :=
  knows_iff.mp (wellFormed.targets_known transition member)

/-- Among the ids of states, those of seeds are the ids that no pass recomputes. -/
theorem mem_recomputed_iff (wellFormed : machine.WellFormed) {state : State}
    (member : state ∈ machine.states) : state ∈ machine.recomputed ↔ state.id ∉ machine.seeds := by
  simp only [recomputed, seeds, List.mem_filter, List.mem_map, member, true_and]
  constructor
  · rintro ordinary ⟨seed, ⟨seedMem, isSeed⟩, sameId⟩
    rw [wellFormed.eq_of_id_eq seedMem member sameId] at isSeed
    simp [isSeed] at ordinary
  · intro noSeed
    rw [Bool.not_eq_true']
    by_contra isSeed
    exact noSeed ⟨state, ⟨member, by simpa using isSeed⟩, rfl⟩

theorem length_recomputed (wellFormed : machine.WellFormed) :
    machine.recomputed.length = machine.states.length - 1 := by
  obtain ⟨seed, only⟩ := wellFormed.one_seed
  have seeds : (machine.states.filter (·.isSeed)).length = 1 := by
    simpa [seeds] using congrArg List.length only
  have parts := List.length_eq_length_filter_add (l := machine.states) (·.isSeed)
  rw [recomputed]
  omega

/-- There is one seed, and no other state is one. -/
theorem exists_seed (wellFormed : machine.WellFormed) :
    ∃ seed ∈ machine.states, seed.isSeed = true ∧
      machine.states.find? (·.isSeed) = some seed ∧
      ∀ state ∈ machine.states, state.isSeed = true → state = seed := by
  obtain ⟨seedId, only⟩ := wellFormed.one_seed
  obtain ⟨seed, filtered, -⟩ := List.map_eq_singleton_iff.mp only
  have seedMem : seed ∈ machine.states.filter (·.isSeed) := by simp [filtered]
  rw [List.mem_filter] at seedMem
  refine ⟨seed, seedMem.1, seedMem.2, ?_, fun state member isSeed => ?_⟩
  · rw [← List.head?_filter, filtered, List.head?_cons]
  · have : state ∈ machine.states.filter (·.isSeed) := List.mem_filter.mpr ⟨member, isSeed⟩
    simpa [filtered] using this

theorem length_pos (wellFormed : machine.WellFormed) : 0 < machine.states.length := by
  obtain ⟨seed, member, -⟩ := wellFormed.exists_seed
  exact List.length_pos_of_mem member

theorem find?_seed (wellFormed : machine.WellFormed) {state : State}
    (member : state ∈ machine.states) (isSeed : state.isSeed = true) :
    machine.states.find? (·.isSeed) = some state := by
  obtain ⟨seed, -, -, found, unique⟩ := wellFormed.exists_seed
  rw [found, unique state member isSeed]

theorem eq_of_mem_seeds (wellFormed : machine.WellFormed) {id : StateId}
    (isSeed : id ∈ machine.seeds) {seed : State}
    (found : machine.states.find? (·.isSeed) = some seed) : id = seed.id := by
  obtain ⟨state, inSeeds, rfl⟩ := List.mem_map.mp isSeed
  obtain ⟨member, isSeed⟩ := List.mem_filter.mp inSeeds
  obtain ⟨only, -, -, foundOnly, unique⟩ := wellFormed.exists_seed
  rw [found] at foundOnly
  rw [unique state member isSeed, Option.some.inj foundOnly]

end WellFormed

/-- A machine is accepted, with its seed, exactly if it is well-formed. -/
theorem checkedSeed_eq_ok_iff {seed : State} :
    machine.checkedSeed = .ok seed ↔
      machine.WellFormed ∧ machine.states.find? (·.isSeed) = some seed := by
  rw [← violations_eq_nil_iff]
  unfold checkedSeed
  split
  · rename_i noViolation
    split <;> rename_i found <;> simp [noViolation, found]
  · rename_i violated
    simpa using fun noViolation => (violated noViolation).elim

theorem checkedSeed_of_not_wellFormed (refused : ¬machine.WellFormed) :
    machine.checkedSeed = .error (.malformed machine.name machine.violations) := by
  rw [← violations_eq_nil_iff] at refused
  unfold checkedSeed
  split
  · rename_i noViolation
    exact absurd noViolation refused
  · rfl

end Machine
end ReactiveReach
