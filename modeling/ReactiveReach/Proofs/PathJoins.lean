import ReactiveReach.Proofs.Distribution
import ReactiveReach.Proofs.Paths

/-!
# Values are joins over paths

A pass applies a transition to the join of all that has arrived at its source. Where
contributions distribute over joining this is what the transition makes of each path
that leads there. After some passes every value is therefore just the join of what the
paths carry that are no longer than the passes, however many cycles they go around.
-/

namespace ReactiveReach.Machine

variable {V P E : Type}

/-- The paths to a state with at most `limit` transitions, found as passes find them. -/
def pathsTo (machine : Machine V P E) : Nat → StateId → List (List (Transition P))
  | 0, id => if id ∈ machine.seeds then [[]] else []
  | limit + 1, id =>
      if id ∈ machine.seeds then [[]]
      else (machine.transitions.filter (·.targets id)).flatMap fun transition =>
        (machine.pathsTo limit transition.source).map (· ++ [transition])

/-- What paths with fewer than `limit` transitions carry to a state, alone or joined. -/
inductive Gathers [BEq P] (machine : Machine V P E) (limit : Nat) (id : StateId) : V → Prop where
  | carried {path : List (Transition P)} {value : V} : machine.Path path id →
      path.length < limit → machine.carried path = .ok value → Gathers machine limit id value
  | join {value other : V} : Gathers machine limit id value → Gathers machine limit id other →
      Gathers machine limit id (machine.assembly.join value other)

/-- No transition fails on what such paths carry to its source. -/
def Carries [BEq P] (machine : Machine V P E) (limit : Nat) : Prop :=
  ∀ transition ∈ machine.transitions, transition.target ∉ machine.seeds →
    ∀ value, machine.Gathers limit transition.source value →
      ∃ next, machine.carry value transition = .ok next

variable {machine : Machine V P E}

theorem path_iff_of_seed {id : StateId} (isSeed : id ∈ machine.seeds)
    {path : List (Transition P)} : machine.Path path id ↔ path = [] := by
  constructor
  · rintro (_ | ⟨-, -, noSeed⟩)
    · rfl
    · exact absurd isSeed noSeed
  · rintro rfl
    exact .seed isSeed

theorem path_iff_of_not_seed {id : StateId} (noSeed : id ∉ machine.seeds)
    {path : List (Transition P)} : machine.Path path id ↔
      ∃ transition ∈ machine.transitions, transition.target = id ∧
        ∃ before, machine.Path before transition.source ∧ before ++ [transition] = path := by
  constructor
  · rintro (isSeed | ⟨leads, member, -⟩)
    · exact absurd isSeed noSeed
    · exact ⟨_, member, rfl, _, leads, rfl⟩
  · rintro ⟨transition, member, rfl, before, leads, rfl⟩
    exact .step leads member noSeed

theorem pathsTo_of_seed {limit : Nat} {id : StateId} (isSeed : id ∈ machine.seeds) :
    machine.pathsTo limit id = [[]] := by
  cases limit <;> rw [pathsTo, if_pos isSeed]

theorem mem_pathsTo {limit : Nat} {id : StateId} {path : List (Transition P)} :
    path ∈ machine.pathsTo limit id ↔ machine.Path path id ∧ path.length ≤ limit := by
  have atSeed : ∀ {limit id path}, id ∈ machine.seeds →
      (path ∈ machine.pathsTo limit id ↔ machine.Path path id ∧ path.length ≤ limit) := by
    intro limit id path isSeed
    rw [pathsTo_of_seed isSeed, path_iff_of_seed isSeed, List.mem_singleton]
    exact ⟨fun none => ⟨none, none ▸ Nat.zero_le limit⟩, And.left⟩
  induction limit generalizing id path with
  | zero =>
      rcases Classical.em (id ∈ machine.seeds) with isSeed | noSeed
      · exact atSeed isSeed
      rw [pathsTo, if_neg noSeed, path_iff_of_not_seed noSeed]
      refine ⟨fun listed => by simp at listed, ?_⟩
      rintro ⟨⟨transition, -, -, before, -, rfl⟩, short⟩
      simp at short
  | succ limit ih =>
      rcases Classical.em (id ∈ machine.seeds) with isSeed | noSeed
      · exact atSeed isSeed
      simp only [pathsTo, if_neg noSeed, path_iff_of_not_seed noSeed, List.mem_flatMap,
        mem_filter_targets, List.mem_map, ih]
      constructor
      · rintro ⟨transition, ⟨member, target⟩, before, ⟨leads, short⟩, rfl⟩
        exact ⟨⟨transition, member, target, before, leads, rfl⟩, by simpa using short⟩
      · rintro ⟨⟨transition, member, target, before, leads, rfl⟩, short⟩
        exact ⟨transition, ⟨member, target⟩, before, ⟨leads, by simpa using short⟩, rfl⟩

variable [BEq P] {limit passes : Nat}

/-- What a path carries exists if transitions do not fail on what is carried to them. -/
theorem Path.exists_carried {path : List (Transition P)} {id : StateId}
    (leads : machine.Path path id) (carries : machine.Carries limit) {initial : V}
    (given : machine.assembly.initial = .ok initial) (short : path.length ≤ limit) :
    ∃ value, machine.carried path = .ok value := by
  induction leads with
  | seed =>
      refine ⟨initial, ?_⟩
      rw [carried, given]
      rfl
  | @step path transition leads member noSeed ih =>
      rw [List.length_append, List.length_singleton] at short
      obtain ⟨value, carriedBefore⟩ := ih (Nat.le_of_succ_le short)
      obtain ⟨next, carries⟩ :=
        carries transition member noSeed value (.carried leads short carriedBefore)
      refine ⟨next, ?_⟩
      rw [carried_append_singleton, carriedBefore, ok_bind, carries]

variable [BEq V] [LawfulBEq V] {values : StateMap V}

theorem Distributive.carry (laws : machine.Distributive) (transition : Transition P) :
    machine.assembly.Distributes (machine.carry · transition) := by
  unfold Machine.carry
  cases machine.state? transition.source with
  | none => exact .error _
  | some source =>
      have exits : ∀ value, machine.exitsFor source value =
          machine.exitsFor source machine.assembly.bottom := by
        intro value
        unfold exitsFor
        split
        · rfl
        · exact laws.exits_const source value _
      apply Assembly.Distributes.mapError
      simp only [exits]
      cases machine.exitsFor source machine.assembly.bottom with
      | error failure => exact .error failure
      | ok zones => exact laws.values.contribute transition source zones

/-- Each state has the join of what the paths with at most `passes` transitions carry there. -/
def JoinsPaths (machine : Machine V P E) (passes : Nat) (values : StateMap V) : Prop :=
  ∀ state ∈ machine.states, ∃ value, values[state.id]? = some value ∧
    machine.assembly.joinEach machine.carried (machine.pathsTo passes state.id) = .ok value

omit [BEq V] [LawfulBEq V] in
theorem joinsPaths_at_seed (laws : machine.Distributive) (anchored : machine.Anchored values)
    {state : State} (isSeed : state.id ∈ machine.seeds) :
    ∃ value, values[state.id]? = some value ∧
      machine.assembly.joinEach machine.carried (machine.pathsTo passes state.id) = .ok value := by
  obtain ⟨seed, initial, found, given, pinned⟩ := anchored.pinned
  rw [← anchored.wellFormed.eq_of_mem_seeds isSeed found] at pinned
  refine ⟨initial, pinned, ?_⟩
  rw [pathsTo_of_seed isSeed, Assembly.joinEach_eq_ok_iff]
  refine ⟨[initial], ?_, laws.values.bottom_join initial⟩
  simp [carried, given, Except.mapError]

omit [BEq V] [LawfulBEq V] in
theorem JoinsPaths.exists_whole (joins : machine.JoinsPaths passes values)
    (wellFormed : machine.WellFormed) {transition : Transition P}
    (member : transition ∈ machine.transitions) {next : V}
    (arrives : machine.arrival values transition = .ok next) :
    ∃ whole, machine.assembly.joinEach machine.carried
        (machine.pathsTo passes transition.source) = .ok whole ∧
      machine.carry whole transition = .ok next := by
  obtain ⟨source, sourceMem, sourceId, -⟩ := wellFormed.exists_source member
  obtain ⟨whole, found, folded⟩ := joins source sourceMem
  rw [sourceId] at found folded
  obtain ⟨_, foundThere, carries⟩ := arrival_eq_ok_iff.mp arrives
  rw [found, Option.some.injEq] at foundThere
  exact ⟨whole, folded, foundThere ▸ carries⟩

theorem JoinsPaths.below_joined (joins : machine.JoinsPaths passes values)
    (laws : machine.Distributive) (wellFormed : machine.WellFormed) {transition : Transition P}
    (member : transition ∈ machine.transitions) {joined : V}
    (folded : machine.assembly.joinEach (machine.arrival values)
      (machine.transitions.filter (·.targets transition.target)) = .ok joined)
    {path : List (Transition P)} (listed : path ∈ machine.pathsTo passes transition.source)
    {value : V} (carried : machine.carried (path ++ [transition]) = .ok value) :
    machine.assembly.below value joined = true := by
  have semilattice := laws.values.toSemilattice
  have into : transition ∈ machine.transitions.filter (·.targets transition.target) :=
    mem_filter_targets.mpr ⟨member, rfl⟩
  obtain ⟨next, arrives, belowJoined⟩ := semilattice.below_joinEach folded into
  obtain ⟨whole, foldedThere, carriesWhole⟩ := joins.exists_whole wellFormed member arrives
  obtain ⟨part, carriedBefore, belowWhole⟩ := semilattice.below_joinEach foldedThere listed
  rw [carried_append_singleton, carriedBefore, ok_bind] at carried
  have belowNext := (laws.carry transition).mono belowWhole carried carriesWhole
  exact semilattice.below_trans belowNext belowJoined

theorem JoinsPaths.arrival_below (joins : machine.JoinsPaths passes values)
    (laws : machine.Distributive) (carries : machine.Carries limit) (more : passes < limit)
    (wellFormed : machine.WellFormed) {transition : Transition P}
    (member : transition ∈ machine.transitions) (noSeed : transition.target ∉ machine.seeds)
    {gathered : V} (folded : machine.assembly.joinEach machine.carried
      (machine.pathsTo (passes + 1) transition.target) = .ok gathered)
    {next : V} (arrives : machine.arrival values transition = .ok next) :
    machine.assembly.below next gathered = true := by
  have semilattice := laws.values.toSemilattice
  obtain ⟨whole, foldedThere, carriesWhole⟩ := joins.exists_whole wellFormed member arrives
  refine (laws.carry transition).below_of_joinEach semilattice .join
    (carries transition member noSeed) ?_ foldedThere carriesWhole
  intro path listed value carriedBefore
  obtain ⟨leads, short⟩ := mem_pathsTo.mp listed
  refine ⟨.carried leads (Nat.lt_of_le_of_lt short more) carriedBefore, ?_⟩
  intro part carriesPart
  have longer : path ++ [transition] ∈ machine.pathsTo (passes + 1) transition.target :=
    mem_pathsTo.mpr ⟨.step leads member noSeed, by simpa using short⟩
  obtain ⟨_, carriedOn, below⟩ := semilattice.below_joinEach folded longer
  rw [carried_append_singleton, carriedBefore, ok_bind, carriesPart, Except.ok.injEq] at carriedOn
  rw [carriedOn]
  exact below

/-- A pass carries all paths one transition further. -/
theorem JoinsPaths.pass (joins : machine.JoinsPaths passes values) (laws : machine.Distributive)
    (carries : machine.Carries limit) (more : passes < limit)
    (anchored : machine.Anchored values) {outcome : PassOutcome V P}
    (passed : (machine.pass machine.incoming values).result = .ok outcome) :
    machine.JoinsPaths (passes + 1) outcome.semantics := by
  have wellFormed := anchored.wellFormed
  have semilattice := laws.values.toSemilattice
  intro state member
  rcases Classical.em (state.id ∈ machine.seeds) with isSeed | noSeed
  · exact joinsPaths_at_seed laws (anchored.pass passed) isSeed
  have isPass := isPass_of_pass wellFormed passed
  obtain ⟨-, after, -, joined, stored, -⟩ :=
    isPass.exists_recomputed ((wellFormed.mem_recomputed_iff member).mpr noSeed)
  rw [joinedAt_eq_arrivals wellFormed isPass.refreshed] at joined
  obtain ⟨-, initial, -, given, -⟩ := anchored.pinned
  obtain ⟨gathered, folded⟩ : ∃ gathered, machine.assembly.joinEach machine.carried
      (machine.pathsTo (passes + 1) state.id) = .ok gathered := by
    apply Assembly.exists_joinEach_iff.mpr
    intro path listed
    obtain ⟨leads, short⟩ := mem_pathsTo.mp listed
    exact leads.exists_carried carries given (Nat.le_trans short more)
  suffices same : gathered = after from ⟨after, stored, same ▸ folded⟩
  apply semilattice.below_antisymm
  · apply semilattice.joinEach_below folded
    intro path listed value carried
    obtain ⟨leads, short⟩ := mem_pathsTo.mp listed
    obtain ⟨transition, listedThere, target, before, leadsBefore, rfl⟩ :=
      (path_iff_of_not_seed noSeed).mp leads
    rw [← target] at joined
    have shortBefore : before.length ≤ passes := by simpa using short
    exact joins.below_joined laws wellFormed listedThere joined
      (mem_pathsTo.mpr ⟨leadsBefore, shortBefore⟩) carried
  · apply semilattice.joinEach_below joined
    intro transition into next arrives
    obtain ⟨listed, target⟩ := mem_filter_targets.mp into
    rw [← target] at noSeed folded
    exact joins.arrival_below laws carries more wellFormed listed noSeed folded arrives

theorem joinsPaths_iterates (laws : machine.Distributive) (carries : machine.Carries limit)
    (started : machine.startValues = .ok values) (enough : passes ≤ limit)
    {reached : StateMap V} (iterated : machine.iterates values passes = .ok reached) :
    machine.JoinsPaths passes reached := by
  have anchored := anchored_of_startValues started
  induction passes generalizing reached with
  | zero =>
      obtain rfl : values = reached := Except.ok.inj iterated
      intro state member
      rcases Classical.em (state.id ∈ machine.seeds) with isSeed | noSeed
      · exact joinsPaths_at_seed laws anchored isSeed
      have recomputed := (anchored.wellFormed.mem_recomputed_iff member).mpr noSeed
      refine ⟨_, getElem?_startValues started recomputed, ?_⟩
      rw [pathsTo, if_neg noSeed]
      rfl
  | succ passes ih =>
      obtain ⟨earlier, outcome, before, passed, rfl⟩ := iterates_succ_eq_ok.mp iterated
      have joins := ih (Nat.le_of_succ_le enough) before
      exact joins.pass laws carries enough (anchored.iterates before) passed

/-- Solving a distributive machine finds for each state but the seed just the join of
what the paths carry there that have at most as many transitions as the run made passes,
whether or not it came to rest. Contributions must not fail on what paths carry, nor on
what several paths carry together, since the law says nothing where there is no result. -/
theorem solve_joins_paths (laws : machine.Distributive) {solver : Solver}
    {solution : Solution V P} (solved : (solver.solve machine).result = .ok solution)
    (carries : machine.Carries solution.iterations) {state : State}
    (member : state ∈ machine.recomputed) :
    (∀ path, path ∈ machine.pathsTo solution.iterations state.id ↔
      path ≠ [] ∧ machine.Path path state.id ∧ path.length ≤ solution.iterations) ∧
      ∃ value, solution.semantics[state.id]? = some value ∧
        machine.assembly.joinEach machine.carried
          (machine.pathsTo solution.iterations state.id) = .ok value := by
  obtain ⟨values, started, iterated⟩ := valuesAfter_eq_ok_iff.mp (valuesAfter_of_solve solved).1
  have wellFormed := (anchored_of_startValues started).wellFormed
  have isState : state ∈ machine.states := List.mem_of_mem_filter member
  have noSeed := (wellFormed.mem_recomputed_iff isState).mp member
  constructor
  · intro path
    rw [mem_pathsTo, iff_and_self]
    rintro ⟨leads, -⟩ rfl
    obtain ⟨transition, -, -, before, -, none⟩ := (path_iff_of_not_seed noSeed).mp leads
    simp at none
  · exact joinsPaths_iterates laws carries started (Nat.le_refl _) iterated state isState

theorem steadyLadder_distributive : Samples.steadyLadder.Distributive where
  values := Samples.lift.distributive
  exits_const _ _ _ := rfl

theorem steadyLadder_carries (limit : Nat) : Samples.steadyLadder.Carries limit := by
  have each : ∀ transition ∈ Samples.ladder.transitions, ∀ value, ∃ next,
      Samples.steadyLadder.carry value transition = .ok next := by
    simp only [Samples.ladder, List.forall_mem_cons]
    exact ⟨fun _ => ⟨_, rfl⟩, fun _ => ⟨_, rfl⟩, fun _ => ⟨_, rfl⟩, fun _ => ⟨_, rfl⟩, by simp⟩
  exact fun transition member _ value _ => each transition member value

theorem steadyLadder_joins_paths : ∃ solution,
    (Solver.standard.solve Samples.steadyLadder).result = .ok solution ∧
      solution.semantics["B"]? = some 7 ∧
      Samples.steadyLadder.assembly.joinEach Samples.steadyLadder.carried
        (Samples.steadyLadder.pathsTo 6 "B") = .ok 7 ∧
      ∀ path, path ∈ Samples.steadyLadder.pathsTo 6 "B" ↔
        path ≠ [] ∧ Samples.steadyLadder.Path path "B" ∧ path.length ≤ 6 := by
  obtain ⟨solution, solved, passes, found⟩ : ∃ solution,
      (Solver.standard.solve Samples.steadyLadder).result = .ok solution ∧
        solution.iterations = 6 ∧ solution.semantics["B"]? = some 7 :=
    exists_ok_of_any (by decide +kernel)
  have second : State.ordinary "B" ∈ Samples.steadyLadder.recomputed := by decide
  obtain ⟨listed, value, stored, folded⟩ := solve_joins_paths steadyLadder_distributive solved
    (steadyLadder_carries solution.iterations) second
  obtain rfl : 7 = value := Option.some.inj (found.symm.trans stored)
  rw [passes] at listed folded
  exact ⟨solution, solved, found, folded, listed⟩

end ReactiveReach.Machine
