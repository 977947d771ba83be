import Mathlib.Data.Multiset.Fold
import ReactiveReach.Proofs.Lookups
import ReactiveReach.Samples.Ladder

/-!
# The order of states and transitions

Two machines may list the same states in different orders, and the same transitions
in different orders and more or less often. Where joining is associative, commutative
and idempotent, a pass gives a state the join of a set of contributions, so the two
machines agree on values, zones and the number of passes. Only two things depend on
the order: which of several failures ends a run, and how a record orders the states
that a pass changed.
-/

namespace ReactiveReach

variable {V P E : Type}

/-- Such a fold only depends on which members a list has. -/
theorem foldl_eq_of_mem_iff {α : Type} {operation : α → α → α} [Std.Associative operation]
    [Std.Commutative operation] [Std.IdempotentOp operation] {members others : List α}
    (same : ∀ member, member ∈ members ↔ member ∈ others) (start : α) :
    members.foldl operation start = others.foldl operation start := by
  classical
  have sameSet : (members : Multiset α).dedup = (others : Multiset α).dedup := by
    simpa only [Multiset.dedup_ext, Multiset.mem_coe] using same
  calc
    members.foldl operation start = (members : Multiset α).fold operation start :=
      (Multiset.coe_fold_l operation start members).symm
    _ = (members : Multiset α).dedup.fold operation start :=
      (Multiset.fold_dedup_idem operation _ start).symm
    _ = (others : Multiset α).fold operation start := by
      rw [sameSet, Multiset.fold_dedup_idem]
    _ = others.foldl operation start := Multiset.coe_fold_l operation start others

namespace Assembly

variable {α ε : Type} {assembly : Assembly V P E} {give : α → Except ε V}

theorem joinEach_of_mem_iff [Std.Associative assembly.join] [Std.Commutative assembly.join]
    [Std.IdempotentOp assembly.join] {members others : List α}
    (same : ∀ member, member ∈ members ↔ member ∈ others) {joined : V}
    (folded : assembly.joinEach give members = .ok joined) :
    assembly.joinEach give others = .ok joined := by
  obtain ⟨values, mapped, folded⟩ := joinEach_eq_ok_iff.mp folded
  have each : ∀ member ∈ others, ∃ value, give member = .ok value := by
    intro member memberMem
    exact exists_mapM_eq_ok_iff.mp ⟨values, mapped⟩ member ((same member).mpr memberMem)
  obtain ⟨otherValues, otherMapped⟩ := exists_mapM_eq_ok_iff.mpr each
  have sameValues : ∀ value, value ∈ otherValues ↔ value ∈ values := by
    intro value
    simp only [mem_iff_of_mapM_eq_ok mapped, mem_iff_of_mapM_eq_ok otherMapped, same]
  apply joinEach_eq_ok_iff.mpr
  exact ⟨otherValues, otherMapped, (foldl_eq_of_mem_iff sameValues _).trans folded⟩

end Assembly

/-- Records of one pass that list the same states, and list them alike if `kept` holds. -/
structure PassRecord.Matches (kept : Prop) (entry other : PassRecord) : Prop where
  iteration : entry.iteration = other.iteration
  changed : entry.changed.Perm other.changed
  in_order : kept → entry.changed = other.changed

/-- Two runs that stand at the same point but for the order within their records. -/
structure Progress.Matches (kept : Prop) (progress other : Progress V P) : Prop where
  semantics : progress.semantics = other.semantics
  zones : progress.zones = other.zones
  passes : progress.passes = other.passes
  history : List.Forall₂ (PassRecord.Matches kept) progress.history.toList
    other.history.toList
  settled : progress.settled = other.settled

/-- Records that match in order are equal. -/
theorem History.eq_of_matches {kept : Prop} (holds : kept) {history other : History}
    (records : List.Forall₂ (PassRecord.Matches kept) history.toList other.toList) :
    history = other := by
  apply History.toList_injective
  rw [← List.forall₂_eq_eq_eq]
  apply records.imp
  rintro ⟨iteration, changed⟩ ⟨otherIteration, otherChanged⟩ matching
  have sameIteration : iteration = otherIteration := matching.iteration
  have sameChanged : changed = otherChanged := matching.in_order holds
  rw [sameIteration, sameChanged]

namespace Machine

/-- `second` has the states and transitions of `first`, perhaps in another order, and
perhaps some transitions more or less often. -/
structure SameSets (first second : Machine V P E) : Prop where
  name : first.name = second.name
  assembly : first.assembly = second.assembly
  exits : first.exits = second.exits
  states : first.states.Perm second.states
  transitions : ∀ transition, transition ∈ first.transitions ↔ transition ∈ second.transitions

namespace SameSets

variable {first second : Machine V P E}

theorem symm (same : first.SameSets second) : second.SameSets first where
  name := same.name.symm
  assembly := same.assembly.symm
  exits := same.exits.symm
  states := same.states.symm
  transitions transition := (same.transitions transition).symm

theorem knows_eq (same : first.SameSets second) (id : StateId) :
    second.knows id = first.knows id := by
  rw [Bool.eq_iff_iff]
  simp only [knows_iff, same.states.mem_iff]

theorem recomputed_perm (same : first.SameSets second) :
    (first.recomputed.map (·.id)).Perm (second.recomputed.map (·.id)) :=
  (same.states.filter _).map _

theorem wellFormed (same : first.SameSets second) (wellFormed : first.WellFormed) :
    second.WellFormed where
  one_seed := by
    obtain ⟨seed, only⟩ := wellFormed.one_seed
    have seeds : first.seeds.Perm second.seeds := (same.states.filter _).map _
    rw [only, List.singleton_perm] at seeds
    exact ⟨seed, seeds.symm⟩
  distinct_ids := (same.states.map _).nodup wellFormed.distinct_ids
  sources_known transition member := by
    rw [same.knows_eq]
    exact wellFormed.sources_known transition ((same.transitions transition).mpr member)
  targets_known transition member := by
    rw [same.knows_eq]
    exact wellFormed.targets_known transition ((same.transitions transition).mpr member)

theorem wellFormed_iff (same : first.SameSets second) :
    first.WellFormed ↔ second.WellFormed :=
  ⟨same.wellFormed, same.symm.wellFormed⟩

theorem state?_eq (same : first.SameSets second) (wellFormed : first.WellFormed)
    (id : StateId) : second.state? id = first.state? id := by
  apply Option.ext
  intro state
  rw [wellFormed.state?_eq_some_iff, (same.wellFormed wellFormed).state?_eq_some_iff,
    same.states.mem_iff]

theorem startValues (same : first.SameSets second) {values : StateMap V}
    (started : first.startValues = .ok values) : second.startValues = .ok values := by
  obtain ⟨seed, initial, wellFormed, found, given, rfl⟩ := startValues_eq_ok_iff.mp started
  have otherWellFormed := same.wellFormed wellFormed
  obtain ⟨otherSeed, -, -, otherFound, unique⟩ := otherWellFormed.exists_seed
  have isSeed : seed.isSeed = true := List.find?_some found
  have sameSeed : seed = otherSeed :=
    unique seed (same.states.mem_iff.mp (List.mem_of_find?_eq_some found)) isSeed
  have bottoms : second.bottomValues = first.bottomValues := by
    refine Std.ExtTreeMap.ext_getElem? fun id => ?_
    rw [bottomValues, bottomValues, wellFormed.getElem?_ofList fun _ => first.assembly.bottom,
      otherWellFormed.getElem?_ofList fun _ => second.assembly.bottom,
      same.state?_eq wellFormed, same.assembly]
  apply startValues_eq_ok_iff.mpr
  refine ⟨seed, initial, otherWellFormed, sameSeed ▸ otherFound, ?_, ?_⟩
  · rw [← same.assembly, given]
  · rw [bottoms]

theorem refreshZones (same : first.SameSets second) (wellFormed : first.WellFormed)
    {values : StateMap V} {zones : ZoneMap P}
    (refreshed : first.refreshZones values = .ok zones) :
    second.refreshZones values = .ok zones := by
  have zonesUnder : second.zonesUnder values = first.zonesUnder values := by
    funext state
    rw [Machine.zonesUnder, Machine.zonesUnder, same.exits]
  rw [refreshZones_eq_ok_iff wellFormed] at refreshed
  rw [refreshZones_eq_ok_iff (same.wellFormed wellFormed), zonesUnder]
  simpa only [same.states.mem_iff] using refreshed

section Pass

variable [BEq P] [Std.Associative first.assembly.join] [Std.Commutative first.assembly.join]
  [Std.IdempotentOp first.assembly.join]

theorem joinedAt (same : first.SameSets second)
    (wellFormed : first.WellFormed) {values : StateMap V} {zones : ZoneMap P} {id : StateId}
    {joined : V} (folded : first.joinedAt values zones id = .ok joined) :
    second.joinedAt values zones id = .ok joined := by
  have given : second.given values zones = first.given values zones := by
    funext transition
    simp only [Machine.given, givenFrom, same.state?_eq wellFormed, same.assembly]
  rw [Machine.joinedAt, given, ← same.assembly]
  refine Assembly.joinEach_of_mem_iff ?_ folded
  intro transition
  simp only [List.mem_filter, same.transitions]

variable [BEq V]

/-- A pass over the one machine is a pass over the other, which lists the changed states
in its own order. -/
theorem pass (same : first.SameSets second)
    (wellFormed : first.WellFormed) {values : StateMap V} {outcome : PassOutcome V P}
    (passed : (first.pass first.incoming values).result = .ok outcome) :
    ∃ other : PassOutcome V P, (second.pass second.incoming values).result = .ok other ∧
      outcome.semantics = other.semantics ∧ outcome.zones = other.zones ∧
      outcome.changed.Perm other.changed ∧
      (first.states = second.states → outcome.changed = other.changed) := by
  have isPass := isPass_of_pass wellFormed passed
  have otherWellFormed := same.wellFormed wellFormed
  let changed := (second.recomputed.map (·.id)).filter (· ∈ outcome.changed)
  have inOrder : changed.Sublist (second.recomputed.map (·.id)) := List.filter_sublist
  have perm : changed.Perm outcome.changed := by
    apply filter_mem_perm otherWellFormed.recomputed_nodup
    · exact wellFormed.recomputed_nodup.sublist isPass.in_order
    · exact fun id listed => same.recomputed_perm.subset (isPass.in_order.subset listed)
  have otherPass : second.IsPass values { outcome with changed } := by
    refine ⟨same.refreshZones wellFormed isPass.refreshed, ?_, ?_, inOrder⟩
    · intro state member
      have recomputed : state ∈ first.recomputed := (same.states.filter _).mem_iff.mpr member
      obtain ⟨before, after, found, joined, stored, differs⟩ :=
        isPass.recomputed state recomputed
      refine ⟨before, after, found, same.joinedAt wellFormed joined, stored, ?_⟩
      exact perm.mem_iff.trans differs
    · intro id untouched
      exact isPass.kept id fun touched => untouched (same.recomputed_perm.mem_iff.mp touched)
  refine ⟨_, (pass_eq_ok_iff otherWellFormed).mpr otherPass, rfl, rfl, perm.symm, ?_⟩
  intro sameStates
  have sameRecomputed : second.recomputed = first.recomputed := by
    rw [Machine.recomputed, Machine.recomputed, sameStates]
  rw [sameRecomputed] at inOrder
  exact (List.Nodup.perm_iff_eq_of_sublist wellFormed.recomputed_nodup isPass.in_order
    inOrder).mp perm.symm

/-- Whole runs match as their passes do. -/
theorem progressAfter (same : first.SameSets second) (wellFormed : first.WellFormed) {limit : Nat}
    {progress other last : Progress V P}
    (matching : progress.Matches (first.states = second.states) other)
    (ended : first.progressAfter limit progress = .ok last) :
    ∃ otherLast, second.progressAfter limit other = .ok otherLast ∧
      last.Matches (first.states = second.states) otherLast := by
  induction limit generalizing progress other with
  | zero =>
      obtain rfl : progress = last := Except.ok.inj ended
      exact ⟨other, rfl, matching⟩
  | succ limit ih =>
      cases settled : progress.settled with
      | true =>
          rw [progressAfter_of_settled settled] at ended
          obtain rfl : progress = last := Except.ok.inj ended
          have otherSettled : other.settled = true := matching.settled ▸ settled
          exact ⟨other, progressAfter_of_settled otherSettled _, matching⟩
      | false =>
          rw [progressAfter_succ settled, bind_eq_ok] at ended
          obtain ⟨outcome, passed, ended⟩ := ended
          rw [matching.semantics] at passed
          obtain ⟨otherOutcome, otherPassed, semantics, zones, perm, inOrder⟩ :=
            same.pass wellFormed passed
          have next : (progress.next outcome).Matches (first.states = second.states)
              (other.next otherOutcome) := by
            refine ⟨semantics, zones, ?_, ?_, ?_⟩
            · rw [Progress.next, Progress.next, matching.passes]
            · simp only [Progress.next, History.toList_record]
              apply List.rel_append matching.history
              exact .cons ⟨congrArg (· + 1) matching.passes, perm, inOrder⟩ .nil
            · exact perm.isEmpty_eq
          obtain ⟨otherLast, otherEnded, atEnd⟩ := ih next ended
          refine ⟨otherLast, ?_, atEnd⟩
          have otherSettled : other.settled = false := matching.settled ▸ settled
          rw [progressAfter_succ otherSettled, bind_eq_ok]
          exact ⟨otherOutcome, otherPassed, otherEnded⟩

theorem exists_solution (same : first.SameSets second) {solver : Solver}
    {solution : Solution V P} (solved : (solver.solve first).result = .ok solution) :
    ∃ other, (solver.solve second).result = .ok other ∧
      solution.semantics = other.semantics ∧ solution.zones = other.zones ∧
      solution.iterations = other.iterations ∧ solution.convergence = other.convergence ∧
      List.Forall₂ (PassRecord.Matches (first.states = second.states))
        solution.history.toList other.history.toList := by
  obtain ⟨values, started, ended⟩ := solve_eq_ok_iff.mp solved
  have wellFormed := (anchored_of_startValues started).wellFormed
  simp only [runFrom, map_eq_ok, mapError_eq_ok] at ended
  obtain ⟨last, ended, rfl⟩ := ended
  have atStart : (Progress.start values : Progress V P).Matches (first.states = second.states)
      (.start values) := ⟨rfl, rfl, rfl, .nil, rfl⟩
  obtain ⟨otherLast, otherEnded, matching⟩ := same.progressAfter wellFormed atStart ended
  refine ⟨otherLast.solution solver.cap, ?_, matching.semantics, matching.zones,
    matching.passes, ?_, matching.history⟩
  · rw [result_solve, same.startValues started, ok_bind, runFrom, otherEnded]
    rfl
  · simp only [Progress.solution, matching.settled]

theorem solvable_iff (same : first.SameSets second) (solver : Solver) :
    (∃ solution, (solver.solve first).result = .ok solution) ↔
      ∃ other, (solver.solve second).result = .ok other := by
  constructor
  · rintro ⟨solution, solved⟩
    obtain ⟨other, otherSolved, -⟩ := same.exists_solution solved
    exact ⟨other, otherSolved⟩
  · rintro ⟨other, otherSolved⟩
    have associative : Std.Associative second.assembly.join := same.assembly ▸ inferInstance
    have commutative : Std.Commutative second.assembly.join := same.assembly ▸ inferInstance
    have idempotent : Std.IdempotentOp second.assembly.join := same.assembly ▸ inferInstance
    obtain ⟨solution, solved, -⟩ := same.symm.exists_solution otherSolved
    exact ⟨solution, solved⟩

end Pass

end SameSets

variable [BEq V] [BEq P] {first second : Machine V P E}

/-- Solving only depends on the set of states and the set of transitions. Machines with
the same sets are malformed together and fail together, and otherwise the solutions
agree in all but the order in which records list states, and in that too if the
machines list their states alike. -/
theorem solve_of_sameSets [Std.Associative first.assembly.join]
    [Std.Commutative first.assembly.join] [Std.IdempotentOp first.assembly.join]
    (same : first.SameSets second) (solver : Solver) :
    ((∃ violations, (solver.solve first).result = .error (.malformed first.name violations)) ↔
      ∃ violations, (solver.solve second).result =
        .error (.malformed second.name violations)) ∧
    ((∃ cause, (solver.solve first).result = .error (.failed (.operation cause))) ↔
      ∃ cause, (solver.solve second).result = .error (.failed (.operation cause))) ∧
    ((∃ solution, (solver.solve first).result = .ok solution) ↔
      ∃ other, (solver.solve second).result = .ok other) ∧
    ∀ solution other, (solver.solve first).result = .ok solution →
      (solver.solve second).result = .ok other →
        solution.semantics = other.semantics ∧ solution.zones = other.zones ∧
        solution.iterations = other.iterations ∧
        solution.convergence = other.convergence ∧
        List.Forall₂ (fun entry otherEntry => entry.iteration = otherEntry.iteration ∧
          entry.changed.Perm otherEntry.changed) solution.history.toList
            other.history.toList ∧
        (first.states = second.states → solution.history = other.history) := by
  refine ⟨?_, ?_, same.solvable_iff solver, ?_⟩
  · rw [solve_malformed_iff, solve_malformed_iff, same.wellFormed_iff]
  · -- Which operation fails first may differ, but not that one does.
    rw [solve_failed_iff, solve_failed_iff, same.wellFormed_iff, same.solvable_iff solver]
  · intro solution other solved otherSolved
    obtain ⟨found, foundSolved, semantics, zones, iterations, convergence, records⟩ :=
      same.exists_solution solved
    obtain rfl : found = other := Except.ok.inj (foundSolved.symm.trans otherSolved)
    refine ⟨semantics, zones, iterations, convergence, ?_, ?_⟩
    · exact records.imp fun _ _ matching => ⟨matching.iteration, matching.changed⟩
    · intro sameStates
      exact History.eq_of_matches sameStates records

omit [BEq V] [BEq P] in
theorem sameSets_backwards (machine : Machine V P E) :
    machine.SameSets (Samples.backwards machine) where
  name := rfl
  assembly := rfl
  exits := rfl
  states := machine.states.reverse_perm.symm
  transitions transition := by simp [Samples.backwards]

theorem ladder_backwards : ∃ solution other,
    (Solver.standard.solve Samples.widerLadder).result = .ok solution ∧
      (Solver.standard.solve (Samples.backwards Samples.widerLadder)).result = .ok other ∧
      solution.semantics = other.semantics ∧ solution.zones = other.zones ∧
      solution.iterations = 6 ∧ other.iterations = 6 ∧ solution.history ≠ other.history := by
  have associative : Std.Associative Samples.widerLadder.assembly.join := ⟨UInt32.or_assoc⟩
  have commutative : Std.Commutative Samples.widerLadder.assembly.join := ⟨UInt32.or_comm⟩
  have idempotent : Std.IdempotentOp Samples.widerLadder.assembly.join :=
    ⟨fun _ => UInt32.or_self⟩
  obtain ⟨solution, solved, passes, changed⟩ : ∃ solution,
      (Solver.standard.solve Samples.widerLadder).result = .ok solution ∧
        solution.iterations = 6 ∧
        solution.history.toList.head?.map (·.changed) = some ["A", "C"] :=
    exists_ok_of_any (by decide +kernel)
  obtain ⟨other, otherSolved, otherChanged⟩ : ∃ other,
      (Solver.standard.solve (Samples.backwards Samples.widerLadder)).result = .ok other ∧
        other.history.toList.head?.map (·.changed) = some ["C", "A"] :=
    exists_ok_of_any (by decide +kernel)
  obtain ⟨-, -, -, agree⟩ :=
    solve_of_sameSets (sameSets_backwards Samples.widerLadder) Solver.standard
  obtain ⟨semantics, zones, samePasses, -⟩ := agree solution other solved otherSolved
  refine ⟨solution, other, solved, otherSolved, semantics, zones, passes,
    samePasses ▸ passes, ?_⟩
  intro sameHistory
  rw [sameHistory, otherChanged] at changed
  exact absurd changed (by decide)

end Machine
end ReactiveReach
