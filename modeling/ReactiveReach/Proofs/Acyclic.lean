import Mathlib.Data.Finset.Card
import Mathlib.Logic.Relation
import ReactiveReach.Proofs.FixedPoint
import ReactiveReach.Proofs.Locality
import ReactiveReach.Proofs.Lookups
import ReactiveReach.Proofs.Rest

/-!
# Machines without cycles

Where no transitions lead around in a circle, except through the seed, every state has
a depth: the seed has none, and a state lies deeper than the sources of the transitions
into it. A pass settles the states of one more depth, from whatever values a run began
with. There are fewer depths than states, so every run comes to rest after at most as
many passes as there are states, and all of them with the same values.
-/

namespace ReactiveReach.Machine

variable {V P E : Type}

/-- A transition leads from the one state to the other, which is not the seed. -/
def Leads (machine : Machine V P E) (source target : StateId) : Prop :=
  target ∉ machine.seeds ∧
    ∃ transition ∈ machine.transitions, transition.source = source ∧ transition.target = target

/-- No transitions lead back to where they began, other than through the seed. -/
def Acyclic (machine : Machine V P E) : Prop :=
  ∀ id, ¬ Relation.TransGen machine.Leads id id

open Classical in
/-- The states other than the seed from which transitions lead to a state. -/
noncomputable def ancestors (machine : Machine V P E) (id : StateId) : Finset StateId :=
  (machine.recomputed.map (·.id)).toFinset.filter (Relation.TransGen machine.Leads · id)

open Classical in
/-- How many passes a state needs to settle, or more. -/
noncomputable def depth (machine : Machine V P E) (id : StateId) : Nat :=
  if id ∈ machine.seeds then 0 else (machine.ancestors id).card + 1

variable {machine : Machine V P E}

theorem acyclic_of_rank (rank : StateId → Nat)
    (rises : ∀ transition ∈ machine.transitions, transition.target ∉ machine.seeds →
      rank transition.source < rank transition.target) : machine.Acyclic := by
  have upwards : ∀ {low high}, Relation.TransGen machine.Leads low high → rank low < rank high := by
    intro low high leads
    induction leads with
    | single step =>
        obtain ⟨noSeed, transition, member, rfl, rfl⟩ := step
        exact rises transition member noSeed
    | tail _ step ih =>
        obtain ⟨noSeed, transition, member, rfl, rfl⟩ := step
        exact ih.trans (rises transition member noSeed)
  exact fun id around => Nat.lt_irrefl _ (upwards around)

theorem mem_ancestors {id other : StateId} :
    other ∈ machine.ancestors id ↔
      other ∈ machine.recomputed.map (·.id) ∧ Relation.TransGen machine.Leads other id := by
  simp [ancestors]

namespace Acyclic

theorem ancestors_ssubset (acyclic : machine.Acyclic) {source target : StateId}
    (leads : machine.Leads source target) (recomputed : source ∈ machine.recomputed.map (·.id)) :
    machine.ancestors source ⊂ machine.ancestors target := by
  rw [Finset.ssubset_iff_of_subset]
  · refine ⟨source, mem_ancestors.mpr ⟨recomputed, .single leads⟩, ?_⟩
    intro around
    exact acyclic source (mem_ancestors.mp around).2
  · intro other above
    obtain ⟨listed, path⟩ := mem_ancestors.mp above
    exact mem_ancestors.mpr ⟨listed, path.tail leads⟩

theorem depth_lt (acyclic : machine.Acyclic) (wellFormed : machine.WellFormed)
    {transition : Transition P} (member : transition ∈ machine.transitions)
    (noSeed : transition.target ∉ machine.seeds) :
    machine.depth transition.source < machine.depth transition.target := by
  have leads : machine.Leads transition.source transition.target :=
    ⟨noSeed, transition, member, rfl, rfl⟩
  rw [depth, depth, if_neg noSeed]
  split
  · exact Nat.succ_pos _
  · rename_i sourceNoSeed
    obtain ⟨source, sourceMem, sourceId, -⟩ := wellFormed.exists_source member
    have recomputed : source ∈ machine.recomputed :=
      (wellFormed.mem_recomputed_iff sourceMem).mpr (sourceId ▸ sourceNoSeed)
    have listed := List.mem_map_of_mem (f := (·.id)) recomputed
    rw [sourceId] at listed
    exact Nat.succ_lt_succ (Finset.card_lt_card (acyclic.ancestors_ssubset leads listed))

theorem depth_lt_length (acyclic : machine.Acyclic) (wellFormed : machine.WellFormed)
    {state : State} (member : state ∈ machine.states) :
    machine.depth state.id < machine.states.length := by
  have some : 0 < machine.states.length := List.length_pos_of_mem member
  rw [depth]
  split
  · exact some
  · rename_i noSeed
    have listed : state.id ∈ (machine.recomputed.map (·.id)).toFinset := by
      rw [List.mem_toFinset]
      exact List.mem_map_of_mem ((wellFormed.mem_recomputed_iff member).mpr noSeed)
    have others : machine.ancestors state.id ⊂ (machine.recomputed.map (·.id)).toFinset := by
      rw [Finset.ssubset_iff_of_subset]
      · exact ⟨state.id, listed, fun around => acyclic _ (mem_ancestors.mp around).2⟩
      · intro other above
        exact List.mem_toFinset.mpr (mem_ancestors.mp above).1
    have fewer := Finset.card_lt_card others
    rw [List.toFinset_card_of_nodup wellFormed.recomputed_nodup, List.length_map,
      wellFormed.length_recomputed] at fewer
    omega

variable [BEq V] [LawfulBEq V] [BEq P] {values others : StateMap V}

/-- Two runs agree on the states that lie no deeper than the passes they have made,
whatever values they began with. -/
theorem agree (acyclic : machine.Acyclic) (anchored : machine.Anchored values)
    (otherAnchored : machine.Anchored others) {depth passes otherPasses : Nat}
    (enough : depth ≤ passes) (otherEnough : depth ≤ otherPasses)
    {reached otherReached : StateMap V}
    (iterated : machine.iterates values passes = .ok reached)
    (otherIterated : machine.iterates others otherPasses = .ok otherReached) :
    ∀ state ∈ machine.states, machine.depth state.id ≤ depth →
      AgreeAt reached otherReached state.id := by
  have wellFormed := anchored.wellFormed
  induction depth generalizing passes otherPasses reached otherReached with
  | zero =>
      intro state member shallow
      have isSeed : state.isSeed = true := by
        by_contra ordinary
        rw [Bool.not_eq_true] at ordinary
        have noSeed := (wellFormed.mem_recomputed_iff member).mp (mem_recomputed member ordinary)
        simp [Machine.depth, noSeed] at shallow
      exact (anchored.iterates iterated).agree_at_seed rfl (otherAnchored.iterates otherIterated)
        member member isSeed
  | succ depth ih =>
      obtain ⟨before, rfl⟩ := Nat.exists_eq_add_of_le' (Nat.zero_lt_of_lt enough)
      obtain ⟨otherBefore, rfl⟩ := Nat.exists_eq_add_of_le' (Nat.zero_lt_of_lt otherEnough)
      obtain ⟨earlier, outcome, iteratedBefore, passed, rfl⟩ := iterates_succ_eq_ok.mp iterated
      obtain ⟨otherEarlier, otherOutcome, otherIteratedBefore, otherPassed, rfl⟩ :=
        iterates_succ_eq_ok.mp otherIterated
      have agreeBefore := ih (Nat.le_of_succ_le_succ enough) (Nat.le_of_succ_le_succ otherEnough)
        iteratedBefore otherIteratedBefore
      intro state member deep
      cases isSeed : state.isSeed with
      | true =>
          exact (anchored.iterates iterated).agree_at_seed rfl
            (otherAnchored.iterates otherIterated) member member isSeed
      | false =>
          have recomputed := mem_recomputed member isSeed
          have noSeed := (wellFormed.mem_recomputed_iff member).mp recomputed
          apply (isPass_of_pass wellFormed passed).agree rfl rfl wellFormed wellFormed
            (isPass_of_pass wellFormed otherPassed) recomputed recomputed rfl
          intro transition listed target
          obtain ⟨source, sourceMem, sourceId, -⟩ := wellFormed.exists_source listed
          have shallower := acyclic.depth_lt wellFormed listed (target ▸ noSeed)
          rw [target, ← sourceId] at shallower
          exact ⟨source, sourceMem, sourceMem, sourceId,
            agreeBefore source sourceMem (by omega)⟩

theorem exists_rest (acyclic : machine.Acyclic) (anchored : machine.Anchored values)
    {reached : StateMap V}
    (iterated : machine.iterates values machine.states.length = .ok reached) :
    ∃ passes rest zones, passes + 1 = machine.states.length ∧
      machine.iterates values passes = .ok rest ∧ machine.Rests rest zones := by
  have wellFormed := anchored.wellFormed
  obtain ⟨passes, count⟩ := Nat.exists_eq_add_of_le' wellFormed.length_pos
  rw [count] at iterated
  obtain ⟨rest, outcome, iteratedBefore, passed, rfl⟩ := iterates_succ_eq_ok.mp iterated
  have agree : ∀ state ∈ machine.states, AgreeAt outcome.semantics rest state.id := by
    intro state member
    have shallow := acyclic.depth_lt_length wellFormed member
    exact acyclic.agree anchored anchored (Nat.le_succ passes) (Nat.le_refl passes) iterated
      iteratedBefore state member (by omega)
  have same := (anchored.iterates iterated).covers.eq_of_agree
    (anchored.iterates iteratedBefore).covers agree
  have unchanged := (isPass_of_pass wellFormed passed).changed_eq_nil same
  exact ⟨passes, rest, outcome.zones, count.symm, iteratedBefore,
    rests_of_unchanged wellFormed passed unchanged⟩

theorem runFrom (acyclic : machine.Acyclic) (anchored : machine.Anchored values) {cap : Nat}
    (enough : machine.states.length ≤ cap) {solution : Solution V P}
    (ended : machine.runFrom cap values = .ok solution) :
    solution.convergence = .converged ∧ solution.iterations ≤ machine.states.length ∧
      ∃ passes, passes + 1 = machine.states.length ∧
        machine.iterates values passes = .ok solution.semantics ∧
        machine.Rests solution.semantics solution.zones := by
  have wellFormed := anchored.wellFormed
  have positive : 0 < cap := wellFormed.length_pos.trans_le enough
  obtain ⟨reached, iterated⟩ :=
    exists_iterates_of_le (iterates_of_runFrom positive wellFormed ended) enough
  obtain ⟨passes, rest, zones, count, iteratedBefore, rests⟩ :=
    acyclic.exists_rest anchored iterated
  obtain ⟨converged, atMost, rfl, rfl⟩ :=
    runFrom_of_rests wellFormed iteratedBefore rests (count ▸ enough) ended
  exact ⟨converged, count ▸ atMost, passes, count, iteratedBefore, rests⟩

theorem runFrom_unique (acyclic : machine.Acyclic) (anchored : machine.Anchored values)
    (otherAnchored : machine.Anchored others) {cap otherCap : Nat}
    (enough : machine.states.length ≤ cap) (otherEnough : machine.states.length ≤ otherCap)
    {solution other : Solution V P} (ended : machine.runFrom cap values = .ok solution)
    (otherEnded : machine.runFrom otherCap others = .ok other) :
    solution.semantics = other.semantics ∧ solution.zones = other.zones := by
  obtain ⟨-, -, passes, count, iterated, rests⟩ := acyclic.runFrom anchored enough ended
  obtain ⟨-, -, otherPasses, otherCount, otherIterated, otherRests⟩ :=
    acyclic.runFrom otherAnchored otherEnough otherEnded
  have agree : ∀ state ∈ machine.states,
      AgreeAt solution.semantics other.semantics state.id := by
    intro state member
    have shallow := acyclic.depth_lt_length anchored.wellFormed member
    exact acyclic.agree anchored otherAnchored (Nat.le_refl passes) (by omega) iterated
      otherIterated state member (by omega)
  have same := (anchored.iterates iterated).covers.eq_of_agree
    (otherAnchored.iterates otherIterated).covers agree
  rw [same, Rests, otherRests, Except.ok.injEq, PassOutcome.mk.injEq] at rests
  exact ⟨same, rests.2.1.symm⟩

end Acyclic

/-- A result that is a failed operation, or an outcome at rest after not too many passes. -/
def FailsOrRests (limit : Nat) (result : Except (SolveError E) (Solution V P)) : Prop :=
  (∃ cause, result = .error (.failed (.operation cause))) ∨
    ∃ solution, result = .ok solution ∧ solution.convergence = .converged ∧
      solution.iterations ≤ limit

variable [BEq V] [LawfulBEq V] [BEq P]

/-- A machine without cycles comes to rest after as many passes as it has states, if no
operation fails and the solver allows that many, whatever values a checkpoint puts in
place of those with which solving begins, and it comes to the same rest. No law of a
lattice is assumed. -/
theorem one_rest_of_acyclic (wellFormed : machine.WellFormed) (acyclic : machine.Acyclic) :
    (∀ solver : Solver, machine.states.length ≤ solver.cap →
      FailsOrRests machine.states.length (solver.solve machine).result ∧
        ∀ checkpoint : Checkpoint V, checkpoint.machine = machine.name →
          machine.Covers checkpoint.semantics →
          FailsOrRests machine.states.length (solver.resume machine checkpoint).result) ∧
      ∀ (solver other : Solver) (solution again : Solution V P),
        machine.states.length ≤ solver.cap → machine.states.length ≤ other.cap →
        solver.Returns machine solution → other.Returns machine again →
        solution.semantics = again.semantics ∧ solution.zones = again.zones := by
  refine ⟨fun solver enough => ?_, fun solver other solution again enough otherEnough => ?_⟩
  · have rests : ∀ solution, solver.Returns machine solution →
        solution.convergence = .converged ∧ solution.iterations ≤ machine.states.length := by
      intro solution returned
      obtain ⟨values, anchored, ended⟩ := returned.exists_run
      obtain ⟨converged, atMost, -⟩ := acyclic.runFrom anchored enough ended
      exact ⟨converged, atMost⟩
    constructor
    · cases solved : (solver.solve machine).result with
      | error failure =>
          obtain ⟨cause, rfl⟩ := wellFormed.exists_cause solved
          exact .inl ⟨cause, rfl⟩
      | ok solution => exact .inr ⟨solution, rfl, rests solution (.solved solved)⟩
    · intro checkpoint sameName covers
      cases resumed : (solver.resume machine checkpoint).result with
      | error failure =>
          obtain ⟨cause, rfl⟩ := wellFormed.exists_cause_of_resume sameName covers resumed
          exact .inl ⟨cause, rfl⟩
      | ok solution => exact .inr ⟨solution, rfl, rests solution (.resumed checkpoint resumed)⟩
  · intro returned otherReturned
    obtain ⟨values, anchored, ended⟩ := returned.exists_run
    obtain ⟨others, otherAnchored, otherEnded⟩ := otherReturned.exists_run
    exact acyclic.runFrom_unique anchored otherAnchored enough otherEnough ended otherEnded

theorem straightLadder_one_rest : ∃ solution again,
    (Solver.standard.solve Samples.straightLadder).result = .ok solution ∧
      (Solver.standard.resume Samples.straightLadder Samples.astray).result = .ok again ∧
      solution.convergence = .converged ∧ solution.iterations ≤ 5 ∧
      again.convergence = .converged ∧ again.iterations ≤ 5 ∧
      solution.semantics = again.semantics ∧ solution.zones = again.zones := by
  have wellFormed : Samples.straightLadder.WellFormed := violations_eq_nil_iff.mp (by decide)
  have acyclic : Samples.straightLadder.Acyclic :=
    acyclic_of_rank (fun id => ["Seed", "D", "A", "B", "C"].idxOf id) (by decide)
  have enough : Samples.straightLadder.states.length ≤ Solver.standard.cap := by decide
  obtain ⟨solution, solved⟩ : ∃ solution,
      (Solver.standard.solve Samples.straightLadder).result = .ok solution :=
    exists_ok_of_isSome (by decide +kernel)
  obtain ⟨again, resumed⟩ : ∃ again,
      (Solver.standard.resume Samples.straightLadder Samples.astray).result = .ok again :=
    exists_ok_of_isSome (by decide +kernel)
  have covers : Samples.straightLadder.Covers Samples.astray.semantics :=
    checkCoverage_eq_ok_iff.mp (by decide +kernel)
  obtain ⟨rests, same⟩ := one_rest_of_acyclic wellFormed acyclic
  obtain ⟨solves, resumes⟩ := rests Solver.standard enough
  have resumes := resumes Samples.astray rfl covers
  simp only [FailsOrRests, solved, resumed, Except.ok.injEq, reduceCtorEq, exists_false,
    false_or, exists_eq_left'] at solves resumes
  exact ⟨solution, again, solved, resumed, solves.1, solves.2, resumes.1, resumes.2,
    same _ _ _ _ enough enough (.solved solved) (.resumed Samples.astray resumed)⟩

end ReactiveReach.Machine
