import ReactiveReach.Proofs.Pass

/-!
# Where runs begin

Solving begins with bottom everywhere and resuming with the values of a checkpoint,
and both put the initial value at the seed. The values that result are anchored:
they are for exactly the states of an accepted machine, and the seed has the
initial value. Every pass keeps them so, and the values of any run can therefore
be resumed from without changing them.
-/

namespace ReactiveReach

variable {V P E : Type}

namespace Machine

/-- The values are for exactly the states of the machine. -/
def Covers (machine : Machine V P E) (values : StateMap V) : Prop :=
  ∀ id, id ∈ values ↔ machine.knows id = true

/-- Values from which a run may start: they cover an accepted machine, and the
seed has the initial value of the assembly. -/
structure Anchored (machine : Machine V P E) (values : StateMap V) : Prop where
  wellFormed : machine.WellFormed
  covers : machine.Covers values
  pinned : ∃ seed initial, machine.states.find? (·.isSeed) = some seed ∧
    machine.assembly.initial = .ok initial ∧ values[seed.id]? = some initial

/-- The values with which solving begins. -/
def startValues (machine : Machine V P E) : Except (SolveError E) (StateMap V) := do
  let seed ← machine.checkedSeed
  let initial ← machine.initialValue
  return machine.bottomValues.insert seed.id initial

/-- The values with which resuming begins. -/
def resumeValues (machine : Machine V P E) (checkpoint : Checkpoint V) :
    Except (SolveError E) (StateMap V) := do
  let seed ← machine.checkedSeed
  if checkpoint.machine ≠ machine.name then
    throw (.foreignCheckpoint machine.name checkpoint.machine)
  machine.checkCoverage checkpoint.semantics
  let initial ← machine.initialValue
  return checkpoint.semantics.insert seed.id initial

variable {machine : Machine V P E}

theorem checkCoverage_eq_ok_iff {values : StateMap V} :
    machine.checkCoverage values = .ok () ↔ machine.Covers values := by
  have covered : machine.uncovered values = [] ↔
      ∀ id, machine.knows id = true → id ∈ values := by
    simp [uncovered, List.filter_eq_nil_iff, knows_iff]
  have expected : machine.unexpected values = [] ↔
      ∀ id, id ∈ values → machine.knows id = true := by
    simp [unexpected, List.filter_eq_nil_iff]
  have both : machine.Covers values ↔
      machine.uncovered values = [] ∧ machine.unexpected values = [] := by
    rw [covered, expected, ← forall_and]
    exact forall_congr' fun id => ⟨fun same => ⟨same.mpr, same.mp⟩, fun each => ⟨each.2, each.1⟩⟩
  rw [both]
  unfold checkCoverage
  split <;> simp_all

theorem initialValue_eq_ok_iff {initial : V} :
    machine.initialValue = .ok initial ↔ machine.assembly.initial = .ok initial :=
  mapError_eq_ok

theorem mem_bottomValues {id : StateId} :
    id ∈ machine.bottomValues ↔ machine.knows id = true := by
  simp [bottomValues, knows_iff, Std.ExtTreeMap.mem_ofList, Function.comp_def]

theorem getElem?_bottomValues (wellFormed : machine.WellFormed) {id : StateId} {value : V}
    (found : machine.bottomValues[id]? = some value) : value = machine.assembly.bottom := by
  rw [bottomValues, wellFormed.getElem?_ofList fun _ => machine.assembly.bottom,
    Option.map_eq_some_iff] at found
  obtain ⟨_, -, bottom⟩ := found
  exact bottom.symm

theorem Covers.mem {values : StateMap V} (covers : machine.Covers values) {state : State}
    (member : state ∈ machine.states) : state.id ∈ values :=
  (covers state.id).mpr (knows_iff.mpr ⟨state, member, rfl⟩)

/-- Pinning the seed keeps covering values covering. -/
theorem Covers.insert_seed {values : StateMap V} (covers : machine.Covers values)
    {seed : State} (found : machine.states.find? (·.isSeed) = some seed) (initial : V) :
    machine.Covers (values.insert seed.id initial) := by
  intro id
  have known : machine.knows seed.id = true :=
    knows_iff.mpr ⟨seed, List.mem_of_find?_eq_some found, rfl⟩
  rw [Std.ExtTreeMap.mem_insert, covers id, Std.LawfulEqCmp.compare_eq_iff_eq]
  constructor
  · rintro (rfl | knownId)
    · exact known
    · exact knownId
  · exact Or.inr

theorem startValues_eq_ok_iff {values : StateMap V} :
    machine.startValues = .ok values ↔ ∃ seed initial, machine.WellFormed ∧
      machine.states.find? (·.isSeed) = some seed ∧ machine.assembly.initial = .ok initial ∧
      machine.bottomValues.insert seed.id initial = values := by
  simp only [startValues, bind_eq_ok, pure_eq_ok, checkedSeed_eq_ok_iff, initialValue_eq_ok_iff]
  constructor
  · rintro ⟨seed, ⟨wellFormed, found⟩, initial, given, equal⟩
    exact ⟨seed, initial, wellFormed, found, given, equal⟩
  · rintro ⟨seed, initial, wellFormed, found, given, equal⟩
    exact ⟨seed, ⟨wellFormed, found⟩, initial, given, equal⟩

/-- Solving begins with bottom at every state but the seed. -/
theorem getElem?_startValues {values : StateMap V} (started : machine.startValues = .ok values)
    {state : State} (member : state ∈ machine.recomputed) :
    values[state.id]? = some machine.assembly.bottom := by
  obtain ⟨seed, initial, wellFormed, found, -, rfl⟩ := startValues_eq_ok_iff.mp started
  obtain ⟨isState, ordinary⟩ := List.mem_filter.mp member
  have noSeed : seed.id ≠ state.id := by
    intro sameId
    have isSeed : seed.isSeed = true := List.find?_some found
    rw [wellFormed.eq_of_id_eq (List.mem_of_find?_eq_some found) isState sameId] at isSeed
    simp [isSeed] at ordinary
  rw [Std.ExtTreeMap.getElem?_insert, if_neg (by simpa using noSeed), bottomValues,
    wellFormed.getElem?_ofList fun _ => machine.assembly.bottom, wellFormed.state?_id isState,
    Option.map_some]

theorem resumeValues_eq_ok_iff {checkpoint : Checkpoint V} {values : StateMap V} :
    machine.resumeValues checkpoint = .ok values ↔ ∃ seed initial, machine.WellFormed ∧
      machine.states.find? (·.isSeed) = some seed ∧ checkpoint.machine = machine.name ∧
      machine.Covers checkpoint.semantics ∧ machine.assembly.initial = .ok initial ∧
      checkpoint.semantics.insert seed.id initial = values := by
  by_cases sameName : checkpoint.machine = machine.name
  · simp only [resumeValues, sameName, ne_eq, not_true_eq_false, if_false, bind_eq_ok,
      pure_eq_ok, checkedSeed_eq_ok_iff, initialValue_eq_ok_iff]
    constructor
    · rintro ⟨seed, ⟨wellFormed, found⟩, _, covered, initial, given, equal⟩
      exact ⟨seed, initial, wellFormed, found, trivial, checkCoverage_eq_ok_iff.mp covered,
        given, equal⟩
    · rintro ⟨seed, initial, wellFormed, found, -, covers, given, equal⟩
      exact ⟨seed, ⟨wellFormed, found⟩, (), checkCoverage_eq_ok_iff.mpr covers, initial,
        given, equal⟩
  · simp [resumeValues, sameName, bind_eq_ok, throw, throwThe, MonadExceptOf.throw]

/-- An accepted machine needs only the initial value to begin with. -/
theorem startValues_eq_map (wellFormed : machine.WellFormed) {seed : State}
    (found : machine.states.find? (·.isSeed) = some seed) :
    machine.startValues = (machine.bottomValues.insert seed.id ·) <$> machine.initialValue := by
  rw [startValues, checkedSeed_eq_ok_iff.mpr ⟨wellFormed, found⟩]
  rfl

theorem resumeValues_eq_map (wellFormed : machine.WellFormed) {seed : State}
    (found : machine.states.find? (·.isSeed) = some seed) {checkpoint : Checkpoint V}
    (sameName : checkpoint.machine = machine.name)
    (covers : machine.Covers checkpoint.semantics) :
    machine.resumeValues checkpoint =
      (checkpoint.semantics.insert seed.id ·) <$> machine.initialValue := by
  simp only [resumeValues, checkedSeed_eq_ok_iff.mpr ⟨wellFormed, found⟩, ok_bind, sameName,
    ne_eq, not_true_eq_false, if_false, checkCoverage_eq_ok_iff.mpr covers]
  rfl

theorem resumeValues_of_foreign (wellFormed : machine.WellFormed) {checkpoint : Checkpoint V}
    (foreign : checkpoint.machine ≠ machine.name) :
    machine.resumeValues checkpoint =
      .error (.foreignCheckpoint machine.name checkpoint.machine) := by
  obtain ⟨seed, -, -, found, -⟩ := wellFormed.exists_seed
  rw [resumeValues, checkedSeed_eq_ok_iff.mpr ⟨wellFormed, found⟩, ok_bind, if_pos foreign]
  rfl

theorem resumeValues_of_refused (wellFormed : machine.WellFormed) {checkpoint : Checkpoint V}
    (sameName : checkpoint.machine = machine.name) {refusal : SolveError E}
    (refused : machine.checkCoverage checkpoint.semantics = .error refusal) :
    machine.resumeValues checkpoint = .error refusal := by
  obtain ⟨seed, -, -, found, -⟩ := wellFormed.exists_seed
  simp only [resumeValues, checkedSeed_eq_ok_iff.mpr ⟨wellFormed, found⟩, ok_bind, sameName,
    ne_eq, not_true_eq_false, if_false, refused]
  rfl

theorem resumeValues_of_covers (wellFormed : machine.WellFormed) {checkpoint : Checkpoint V}
    (sameName : checkpoint.machine = machine.name)
    (covers : machine.Covers checkpoint.semantics) {seed : StateId}
    (onlySeed : machine.seeds = [seed]) {initial : V}
    (given : machine.assembly.initial = .ok initial) :
    machine.resumeValues checkpoint = .ok (checkpoint.semantics.insert seed initial) := by
  obtain ⟨state, -, -, found, -⟩ := wellFormed.exists_seed
  have isSeed : seed ∈ machine.seeds := by simp [onlySeed]
  rw [wellFormed.eq_of_mem_seeds isSeed found]
  exact resumeValues_eq_ok_iff.mpr
    ⟨state, initial, wellFormed, found, sameName, covers, given, rfl⟩

theorem anchored_of_startValues {values : StateMap V} (started : machine.startValues = .ok values) :
    machine.Anchored values := by
  obtain ⟨seed, initial, wellFormed, found, given, rfl⟩ := startValues_eq_ok_iff.mp started
  have covers : machine.Covers machine.bottomValues := fun id => mem_bottomValues
  exact ⟨wellFormed, covers.insert_seed found initial, seed, initial, found, given,
    Std.ExtTreeMap.getElem?_insert_self⟩

theorem anchored_of_resumeValues {checkpoint : Checkpoint V} {values : StateMap V}
    (started : machine.resumeValues checkpoint = .ok values) : machine.Anchored values := by
  obtain ⟨seed, initial, wellFormed, found, -, covers, given, rfl⟩ :=
    resumeValues_eq_ok_iff.mp started
  exact ⟨wellFormed, covers.insert_seed found initial, seed, initial, found, given,
    Std.ExtTreeMap.getElem?_insert_self⟩

/-- From values that a run may have, a checkpoint resumes with just those values. -/
theorem resumeValues_of_anchored {values : StateMap V} (anchored : machine.Anchored values)
    {checkpoint : Checkpoint V} (sameName : checkpoint.machine = machine.name)
    (sameValues : checkpoint.semantics = values) :
    machine.resumeValues checkpoint = .ok values := by
  obtain ⟨seed, initial, found, given, pinned⟩ := anchored.pinned
  refine resumeValues_eq_ok_iff.mpr ⟨seed, initial, anchored.wellFormed, found, sameName,
    sameValues ▸ anchored.covers, given, ?_⟩
  subst sameValues
  refine Std.ExtTreeMap.ext_getElem? fun id => ?_
  rw [Std.ExtTreeMap.getElem?_insert]
  split
  · rename_i same
    rw [← Std.LawfulEqCmp.eq_of_compare same, pinned]
  · rfl

theorem Anchored.at_seed {values : StateMap V} (anchored : machine.Anchored values)
    {seed : State} {initial : V} (found : machine.states.find? (·.isSeed) = some seed)
    (given : machine.assembly.initial = .ok initial) : values[seed.id]? = some initial := by
  obtain ⟨same, sameInitial, foundSame, givenSame, pinned⟩ := anchored.pinned
  rw [found, Option.some.injEq] at foundSame
  rw [given, Except.ok.injEq] at givenSame
  rw [foundSame, givenSame]
  exact pinned

theorem Anchored.pass [BEq V] [BEq P] {values : StateMap V} (anchored : machine.Anchored values)
    {outcome : PassOutcome V P}
    (passed : (machine.pass machine.incoming values).result = .ok outcome) :
    machine.Anchored outcome.semantics := by
  have isPass := isPass_of_pass anchored.wellFormed passed
  obtain ⟨seed, initial, found, given, pinned⟩ := anchored.pinned
  refine ⟨anchored.wellFormed, fun id => isPass.mem_semantics_iff.trans (anchored.covers id),
    seed, initial, found, given, ?_⟩
  have isSeed : seed.isSeed = true := List.find?_some found
  rw [isPass.getElem?_seed anchored.wellFormed (List.mem_of_find?_eq_some found) isSeed, pinned]

end Machine
end ReactiveReach
