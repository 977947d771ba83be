import Mathlib.Data.List.Forall2
import ReactiveReach.Proofs.Specification
import ReactiveReach.Samples.Ladder

/-!
# What lies behind the seed

The seed has its value from the assembly, so a run reads neither the transitions into the
seed, nor the exit zones that the machine names for it, nor of which kind the transitions
out of it are. Failures that lie there do not show either, and the value that a
checkpoint has for the seed is put aside.

Two machines that differ only there have the same specified pass (`Machine.specifiedPass`)
from any values, and so the same runs.
-/

namespace ReactiveReach

variable {V P E α β ε : Type}

/-- The same transition, which may be of either kind if it begins at a seed. -/
structure Transition.SameBesides (seeds : List StateId) (first second : Transition P) :
    Prop where
  source : first.source = second.source
  target : first.target = second.target
  guard : first.guard = second.guard
  actions : first.actions = second.actions
  triggerable : first.source ∉ seeds → first.triggerable = second.triggerable

/-- Two machines that differ at most in the transitions into the seed, in the kinds of the
transitions out of it, and in the exit zones that they name for it. -/
structure Machine.SameBesidesSeed (first second : Machine V P E) : Prop where
  name : first.name = second.name
  assembly : first.assembly = second.assembly
  states : first.states = second.states
  transitions : List.Forall₂ (Transition.SameBesides first.seeds)
    (first.transitions.filter (·.target ∉ first.seeds))
    (second.transitions.filter (·.target ∉ first.seeds))
  exits : ∀ state ∈ first.states, state.isSeed = false →
    first.exits state = second.exits state

/-- Two checkpoints of one machine with the same values outside the seeds. -/
structure Checkpoint.SameBesides (seeds : List StateId) (first second : Checkpoint V) :
    Prop where
  machine : first.machine = second.machine
  entries : ∀ id, id ∉ seeds → first.semantics[id]? = second.semantics[id]?
  present : ∀ id ∈ seeds, id ∈ first.semantics ↔ id ∈ second.semantics

theorem Transition.SameBesides.refl (seeds : List StateId) (transition : Transition P) :
    transition.SameBesides seeds transition :=
  ⟨rfl, rfl, rfl, rfl, fun _ => rfl⟩

theorem Checkpoint.SameBesides.refl (seeds : List StateId) (checkpoint : Checkpoint V) :
    checkpoint.SameBesides seeds checkpoint :=
  ⟨rfl, fun _ _ => rfl, fun _ _ => .rfl⟩

theorem Checkpoint.SameBesides.mem_iff {seeds : List StateId} {first second : Checkpoint V}
    (same : first.SameBesides seeds second) (id : StateId) :
    id ∈ first.semantics ↔ id ∈ second.semantics := by
  by_cases isSeed : id ∈ seeds
  · exact same.present id isSeed
  · rw [Std.ExtTreeMap.mem_iff_isSome_getElem?, Std.ExtTreeMap.mem_iff_isSome_getElem?,
      same.entries id isSeed]

/-- Which ids a map has decides the order in which it lists them. -/
theorem StateMap.keys_eq {first : StateMap α} {second : StateMap β}
    (same : ∀ id, id ∈ first ↔ id ∈ second) : first.keys = second.keys := by
  have bare : first.map (fun _ _ => ()) = second.map fun _ _ => () := by
    refine Std.ExtTreeMap.ext_getElem? fun id => ?_
    have present : first[id]?.isSome = second[id]?.isSome := by
      rw [Bool.eq_iff_iff, ← Std.ExtTreeMap.mem_iff_isSome_getElem?,
        ← Std.ExtTreeMap.mem_iff_isSome_getElem?, same]
    rw [Std.ExtTreeMap.getElem?_map, Std.ExtTreeMap.getElem?_map]
    generalize first[id]? = entry, second[id]? = otherEntry at present ⊢
    cases entry <;> cases otherEntry <;> simp_all
  rw [← Std.ExtTreeMap.keys_map (f := fun _ _ => ()), bare, Std.ExtTreeMap.keys_map]

theorem Assembly.joinEach_of_forall₂ {assembly : Assembly V P E} {give : α → Except ε V}
    {giveOther : β → Except ε V} {members : List α} {others : List β}
    (same : List.Forall₂ (fun member other => give member = giveOther other) members others) :
    assembly.joinEach give members = assembly.joinEach giveOther others := by
  unfold joinEach
  generalize assembly.bottom = start
  induction same generalizing start with
  | nil => rfl
  | cons here rest ih => simp only [List.foldlM_cons, here, ih]

namespace Machine

theorem isSeed_sourceOf {machine : Machine V P E} (wellFormed : machine.WellFormed)
    {transition : Transition P} (fromSeed : transition.source ∈ machine.seeds) :
    (machine.sourceOf transition).isSeed = true := by
  obtain ⟨seed, listed, sameId⟩ := List.mem_map.mp fromSeed
  obtain ⟨member, isSeed⟩ := List.mem_filter.mp listed
  rw [sourceOf, wellFormed.state?_eq_some_iff.mpr ⟨member, sameId⟩, Option.getD_some, isSeed]

namespace SameBesidesSeed

variable {first second : Machine V P E}

theorem refl (machine : Machine V P E) : machine.SameBesidesSeed machine :=
  ⟨rfl, rfl, rfl, List.forall₂_same.mpr fun transition _ => .refl _ transition,
    fun _ _ _ => rfl⟩

theorem seeds_eq (same : first.SameBesidesSeed second) : second.seeds = first.seeds := by
  rw [seeds, seeds, same.states]

theorem specifiedZones_eq (same : first.SameBesidesSeed second) (values : Assignment V) :
    second.specifiedZones values = first.specifiedZones values := by
  have exits : ∀ state ∈ first.states,
      second.exitsFor state (values state.id) = first.exitsFor state (values state.id) := by
    intro state member
    rw [exitsFor, exitsFor]
    cases isSeed : state.isSeed with
    | true => rfl
    | false => rw [same.exits state member isSeed]
  rw [specifiedZones, specifiedZones, ← same.states]
  have listed := mapM_congr fun state member =>
    congrArg (fun given => (state.id, ·) <$> given) (exits state member)
  rw [listed]

/-- The transitions into a state that is not the seed are the same ones in the same order. -/
theorem into_state (same : first.SameBesidesSeed second) {id : StateId}
    (ordinary : id ∉ first.seeds) :
    List.Forall₂ (Transition.SameBesides first.seeds)
      (first.transitions.filter (·.targets id)) (second.transitions.filter (·.targets id)) := by
  have narrow : ∀ transitions : List (Transition P),
      (transitions.filter (·.target ∉ first.seeds)).filter (·.targets id) =
        transitions.filter (·.targets id) := by
    intro transitions
    rw [List.filter_filter]
    refine List.filter_congr fun transition _ => ?_
    by_cases into : transition.target = id
    · simp [Transition.targets, into, ordinary]
    · simp [Transition.targets, into]
  rw [← narrow first.transitions, ← narrow second.transitions]
  refine List.rel_filter (fun transition other alike => ?_) same.transitions
  simp only [Transition.targets, alike.target]

variable [BEq P]

/-- Out of the seed both kinds of transition give the same. -/
theorem contribute_eq (same : first.SameBesidesSeed second) (wellFormed : first.WellFormed)
    {transition other : Transition P} (alike : transition.SameBesides first.seeds other)
    (value : V) (zones : List (ExitZone P)) :
    other.contribute first.assembly (second.sourceOf other) value zones =
      transition.contribute first.assembly (first.sourceOf transition) value zones := by
  have sources : second.sourceOf other = first.sourceOf transition := by
    rw [sourceOf, sourceOf, state?, state?, same.states, alike.source]
  have sameKind : (other.triggerable || (first.sourceOf transition).isSeed) =
      (transition.triggerable || (first.sourceOf transition).isSeed) := by
    by_cases fromSeed : transition.source ∈ first.seeds
    · rw [isSeed_sourceOf wellFormed fromSeed, Bool.or_true, Bool.or_true]
    · rw [alike.triggerable fromSeed]
  rw [sources]
  simp only [Transition.contribute, Transition.fired, sameKind, alike.guard, alike.actions]

theorem specifiedJoin_eq (same : first.SameBesidesSeed second) (wellFormed : first.WellFormed)
    (values : Assignment V) (zones : Assignment (List (ExitZone P))) {id : StateId}
    (ordinary : id ∉ first.seeds) :
    second.specifiedJoin values zones id = first.specifiedJoin values zones id := by
  rw [specifiedJoin, specifiedJoin, ← same.assembly]
  refine (Assembly.joinEach_of_forall₂ ((same.into_state ordinary).imp ?_)).symm
  intro transition other alike
  rw [← alike.source, same.contribute_eq wellFormed alike]

variable [BEq V]

/-- From any values, a pass over one machine is a pass over the other. -/
theorem specifiedPass_eq (same : first.SameBesidesSeed second) (wellFormed : first.WellFormed)
    (values : Assignment V) : second.specifiedPass values = first.specifiedPass values := by
  have recomputed : second.recomputed = first.recomputed := by
    rw [Machine.recomputed, Machine.recomputed, same.states]
  have joins : ∀ zones : Assignment (List (ExitZone P)),
      (first.recomputed.mapM fun state =>
        (state.id, ·) <$> second.specifiedJoin values zones state.id) =
      first.recomputed.mapM fun state =>
        (state.id, ·) <$> first.specifiedJoin values zones state.id := by
    intro zones
    refine mapM_congr fun state member => ?_
    have ordinary := (wellFormed.mem_recomputed_iff (List.mem_of_mem_filter member)).mp member
    rw [same.specifiedJoin_eq wellFormed values zones ordinary]
  simp only [specifiedPass, same.specifiedZones_eq, recomputed, joins]

theorem specifiedRun_eq (same : first.SameBesidesSeed second) (wellFormed : first.WellFormed)
    (cap : Nat) (values : Assignment V) :
    second.specifiedRun cap values = first.specifiedRun cap values := by
  induction cap generalizing values with
  | zero => rfl
  | succ cap ih => simp only [specifiedRun, same.specifiedPass_eq wellFormed, ih]

/-- What a run begins with at the seeds does not matter. -/
theorem specifiedOutcome_eq (same : first.SameBesidesSeed second)
    (wellFormed : first.WellFormed) (cap : Nat) {values others : Assignment V}
    (agree : ∀ id, id ∉ first.seeds → others id = values id) :
    second.specifiedOutcome cap others = first.specifiedOutcome cap values := by
  have start : ∀ initial : V, (fun id => if id ∈ second.seeds then initial else others id) =
      fun id => if id ∈ first.seeds then initial else values id := by
    intro initial
    funext id
    rw [same.seeds_eq]
    split
    · rfl
    · exact agree id ‹_›
  have tables : ∀ {α : Type} (entries : Assignment α),
      second.tabulate entries = first.tabulate entries := by
    intro α entries
    rw [tabulate, tabulate, same.states]
  simp only [specifiedOutcome, ← same.assembly, start, same.specifiedRun_eq wellFormed,
    outcomeOf, tables]

omit [BEq P] [BEq V] in
theorem assigned_eq (same : first.SameBesidesSeed second) {checkpoint other : Checkpoint V}
    (sameValues : checkpoint.SameBesides first.seeds other) {id : StateId}
    (ordinary : id ∉ first.seeds) :
    second.assigned other.semantics id = first.assigned checkpoint.semantics id := by
  rw [assigned, assigned, Std.ExtTreeMap.getD_eq_getD_getElem?,
    Std.ExtTreeMap.getD_eq_getD_getElem?, sameValues.entries id ordinary, same.assembly]

omit [BEq P] [BEq V] in
theorem checkCoverage_eq (same : first.SameBesidesSeed second) {values others : StateMap V}
    (sameIds : ∀ id, id ∈ values ↔ id ∈ others) :
    second.checkCoverage others = first.checkCoverage values := by
  have contained : ∀ id, others.contains id = values.contains id := by
    intro id
    rw [Bool.eq_iff_iff, Std.ExtTreeMap.contains_iff_mem, Std.ExtTreeMap.contains_iff_mem,
      sameIds]
  simp only [checkCoverage, uncovered, unexpected, knows, ← same.name, ← same.states, contained,
    StateMap.keys_eq sameIds]

/-- Resuming goes the same way from checkpoints that agree outside the seed, refusals
included. -/
theorem resume_eq (same : first.SameBesidesSeed second) (wellFormed : first.WellFormed)
    (otherWellFormed : second.WellFormed) (solver : Solver) {checkpoint other : Checkpoint V}
    (sameValues : checkpoint.SameBesides first.seeds other) :
    (solver.resume second other).result = (solver.resume first checkpoint).result := by
  have coverage := same.checkCoverage_eq sameValues.mem_iff
  by_cases named : checkpoint.machine = first.name
  · have otherNamed : other.machine = second.name := by
      rw [← sameValues.machine, ← same.name, named]
    cases covered : first.checkCoverage checkpoint.semantics with
    | ok accepted =>
        rw [resume_as_specified wellFormed solver named (checkCoverage_eq_ok_iff.mp covered),
          resume_as_specified otherWellFormed solver otherNamed
            (checkCoverage_eq_ok_iff.mp (coverage.trans covered)),
          same.specifiedOutcome_eq wellFormed solver.cap fun id => same.assigned_eq sameValues]
    | error refusal =>
        rw [result_resume, result_resume, resumeValues_of_refused wellFormed named covered,
          resumeValues_of_refused otherWellFormed otherNamed (coverage.trans covered),
          error_bind, error_bind]
  · have otherForeign : other.machine ≠ second.name := by
      rw [← sameValues.machine, ← same.name]
      exact named
    rw [result_resume, result_resume, resumeValues_of_foreign wellFormed named,
      resumeValues_of_foreign otherWellFormed otherForeign, ← same.name, sameValues.machine,
      error_bind, error_bind]

theorem solve_eq (same : first.SameBesidesSeed second) (wellFormed : first.WellFormed)
    (otherWellFormed : second.WellFormed) (solver : Solver) :
    (solver.solve second).result = (solver.solve first).result := by
  rw [solve_as_specified wellFormed, solve_as_specified otherWellFormed, ← same.assembly,
    same.specifiedOutcome_eq wellFormed solver.cap fun _ _ => rfl]

end SameBesidesSeed

/-- Two machines that differ only behind the seed are solved and resumed alike, with the
same failures. Resuming does not depend either on anything that a checkpoint says besides
the name of its machine and the values outside the seed. -/
theorem runs_alike_besides_seed [BEq V] [BEq P] {first second : Machine V P E}
    (same : first.SameBesidesSeed second) (wellFormed : first.WellFormed)
    (otherWellFormed : second.WellFormed) (solver : Solver) :
    (solver.solve first).result = (solver.solve second).result ∧
    (∀ checkpoint : Checkpoint V,
      (solver.resume first checkpoint).result = (solver.resume second checkpoint).result) ∧
    ∀ checkpoint other : Checkpoint V, checkpoint.SameBesides first.seeds other →
      (solver.resume first checkpoint).result = (solver.resume first other).result := by
  refine ⟨(same.solve_eq wellFormed otherWellFormed solver).symm, fun checkpoint => ?_,
    fun checkpoint other sameValues => ?_⟩
  · exact (same.resume_eq wellFormed otherWellFormed solver (.refl _ checkpoint)).symm
  · exact ((SameBesidesSeed.refl first).resume_eq wellFormed wellFormed solver sameValues).symm

theorem ladder_sameBesidesSeed : Samples.ladder.SameBesidesSeed Samples.returningLadder where
  name := rfl
  assembly := rfl
  states := rfl
  transitions :=
    .cons ⟨rfl, rfl, rfl, rfl, by decide⟩ <|
      List.forall₂_same.mpr fun transition _ => .refl _ transition
  exits := by
    intro state member ordinary
    funext flags
    simp [Samples.returningLadder, Samples.ladder, ordinary]

theorem halfway_sameBesides (id other : String) (seed otherSeed : UInt32) :
    (Samples.halfway id seed).SameBesides Samples.ladder.seeds
      { Samples.halfway other otherSeed with version := 7, iterations := 40 } where
  machine := rfl
  entries := by
    intro state ordinary
    have apart : ¬ "Seed" = state := by
      rintro rfl
      exact ordinary (by decide)
    simp [Samples.halfway, Checkpoint.create, Std.ExtTreeMap.getElem?_insert, apart]
  present := by
    intro state isSeed
    obtain rfl : state = "Seed" := by simpa using (show state ∈ ["Seed"] from isSeed)
    simp [Samples.halfway, Checkpoint.create]

/-- What jams the lift on the way back to the seed, and what is not known at the seed, does
not show: the ladder is solved in the same six passes. From the values halfway up it takes
four, whatever the checkpoint has for the seed. Values for a rung that is not there are
refused. -/
theorem ladder_behind_seed :
    (∃ solution, (Solver.standard.solve Samples.ladder).result = .ok solution ∧
      solution.iterations = 6 ∧
      (Solver.standard.solve Samples.returningLadder).result = .ok solution) ∧
    (∃ solution,
      (Solver.standard.resume Samples.ladder (Samples.halfway "halfway" 1)).result =
        .ok solution ∧ solution.iterations = 4 ∧
      (Solver.standard.resume Samples.returningLadder (Samples.halfway "halfway" 1)).result =
        .ok solution ∧
      (Solver.standard.resume Samples.ladder
        { Samples.halfway "again" 64 with version := 7, iterations := 40 }).result =
          .ok solution) ∧
    (Solver.standard.resume Samples.ladder Samples.astray).result =
      .error (.incomplete "ladder" [] ["D"]) ∧
    (Solver.standard.resume Samples.returningLadder Samples.astray).result =
      .error (.incomplete "ladder" [] ["D"]) := by
  have wellFormed : Samples.ladder.WellFormed := violations_eq_nil_iff.mp (by decide)
  have otherWellFormed : Samples.returningLadder.WellFormed :=
    violations_eq_nil_iff.mp (by decide)
  obtain ⟨solves, resumes, ignores⟩ :=
    runs_alike_besides_seed ladder_sameBesidesSeed wellFormed otherWellFormed Solver.standard
  obtain ⟨solution, solved, passes⟩ : ∃ solution,
      (Solver.standard.solve Samples.ladder).result = .ok solution ∧ solution.iterations = 6 :=
    exists_ok_of_any (by decide +kernel)
  obtain ⟨later, resumed, morePasses⟩ : ∃ later,
      (Solver.standard.resume Samples.ladder (Samples.halfway "halfway" 1)).result = .ok later ∧
        later.iterations = 4 :=
    exists_ok_of_any (by decide +kernel)
  have refused : (Solver.standard.resume Samples.ladder Samples.astray).result =
      .error (.incomplete "ladder" [] ["D"]) :=
    eq_error_of_computed (by decide +kernel)
  exact ⟨⟨solution, solved, passes, (solves.symm.trans solved)⟩,
    ⟨later, resumed, morePasses, (resumes _).symm.trans resumed,
      (ignores _ _ (halfway_sameBesides "halfway" "again" 1 64)).symm.trans resumed⟩,
    refused, (resumes _).symm.trans refused⟩

end Machine
end ReactiveReach
