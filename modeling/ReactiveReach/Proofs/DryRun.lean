import ReactiveReach.Proofs.Interruption

/-!
# Verifying is a dry run

Verifying some values makes the pass that a run from them would make first, and throws
its values away. Whatever the values are, the report is therefore the record that the
run would keep of this pass, and where the pass fails both fail alike. After a run that
was cut off, the report is the record of the pass that one more allowed pass would add.
-/

namespace ReactiveReach.Machine

variable {V P E : Type}

/-- The report lists what the last pass of a run changed that had kept the records
`earlier` before this pass, and it fails exactly as the run does. -/
structure Foretells (earlier : List PassRecord) (number : Nat)
    (report : Except (SolveError E) (List StateId))
    (outcome : Except (SolveError E) (Solution V P)) : Prop where
  ok_iff : ∀ changed, report = .ok changed ↔ ∃ solution,
    outcome = .ok solution ∧ solution.history.toList = earlier ++ [⟨number, changed⟩]
  error_iff : ∀ failure, report = .error failure ↔ outcome = .error failure

variable [BEq V] [BEq P] {machine : Machine V P E}

theorem progressAfter_one {progress : Progress V P} (unsettled : progress.settled = false) :
    machine.progressAfter 1 progress =
      progress.next <$> (machine.pass machine.incoming progress.semantics).result := by
  rw [progressAfter_succ unsettled]
  cases (machine.pass machine.incoming progress.semantics).result <;> rfl

theorem Covers.verify_foretells (wellFormed : machine.WellFormed) {progress : Progress V P}
    (covers : machine.Covers progress.semantics) (unsettled : progress.settled = false)
    (cap : Nat) :
    Foretells progress.history.toList (progress.passes + 1)
      (machine.verify progress.semantics).result
      ((·.solution cap) <$> (machine.progressAfter 1 progress).mapError .failed) := by
  rw [result_verify wellFormed covers, progressAfter_one unsettled]
  cases (machine.pass machine.incoming progress.semantics).result with
  | error fault =>
      constructor <;> simp [Except.mapError, Functor.map, Except.map]
  | ok outcome =>
      constructor <;>
        simp [Except.mapError, Functor.map, Except.map, Progress.solution, Progress.next]

theorem Anchored.verify_eq_nil_iff {values : StateMap V} (anchored : machine.Anchored values)
    {cap : Nat} (positive : 0 < cap) :
    (machine.verify values).result = .ok [] ↔ ∃ solution,
      machine.runFrom cap values = .ok solution ∧ solution.convergence = .converged ∧
        solution.iterations = 1 ∧ solution.semantics = values := by
  rw [result_verify anchored.wellFormed anchored.covers, mapError_eq_ok, map_eq_ok]
  constructor
  · rintro ⟨outcome, passed, unchanged⟩
    have same := (isPass_of_pass anchored.wellFormed passed).semantics_eq unchanged
    exact ⟨_, runFrom_of_unchanged positive passed unchanged, rfl, rfl, same⟩
  · rintro ⟨solution, ended, converged, -, same⟩
    obtain ⟨last, -, rfl, reaches, -⟩ := runFrom_eq_ok positive ended
    have settled := Progress.solution_isConverged.mp converged
    obtain ⟨outcome, passed, unchanged, -⟩ :=
      reaches.exists_lastPass anchored.wellFormed settled
    have atStart : last.semantics = values := same
    exact ⟨outcome, atStart ▸ passed, unchanged⟩

theorem verify_foretells_solve {solver longer : Solver} {solution : Solution V P}
    (oneMore : longer.cap = solver.cap + 1)
    (solved : (solver.solve machine).result = .ok solution)
    (cut : solution.convergence = .capReached solver.cap) :
    Foretells solution.history.toList (solver.cap + 1)
      (machine.verify solution.semantics).result (longer.solve machine).result := by
  obtain ⟨values, started, ended⟩ := solve_eq_ok_iff.mp solved
  obtain ⟨last, reached, rfl, reaches, -, -, exactly⟩ := runFrom_eq_ok solver.cap_pos ended
  have anchored := anchored_of_startValues started
  have unsettled : last.settled = false := by
    by_contra settled
    rw [Bool.not_eq_false] at settled
    rw [Progress.solution_isConverged.mpr settled] at cut
    cases cut
  have onward : (longer.solve machine).result =
      (·.solution longer.cap) <$> (machine.progressAfter 1 last).mapError .failed := by
    rw [result_solve, started, ok_bind, runFrom, oneMore, progressAfter_add, reached, ok_bind]
  rw [onward, ← exactly unsettled]
  exact (reaches.anchored anchored).covers.verify_foretells anchored.wellFormed unsettled _

/-- Verifying values in which the seed has the initial value is a dry run of resuming
from them, whatever a checkpoint says about the seed. It reports what a single pass from
there changes and fails as this pass does, and it reports nothing exactly if every run
from there is at rest after one pass. On the values of a run that was cut off, it
reports what the next pass of a longer run changes; on those of a run that converged it
reports nothing, and a longer run makes no other pass. -/
theorem verify_is_dry_run (wellFormed : machine.WellFormed) :
    (∀ (checkpoint : Checkpoint V) (seed : StateId) (initial : V),
      checkpoint.machine = machine.name → machine.Covers checkpoint.semantics →
      machine.seeds = [seed] → machine.assembly.initial = .ok initial →
      (∀ solver : Solver, solver.cap = 1 →
        Foretells [] 1
          (machine.verify (checkpoint.semantics.insert seed initial)).result
          (solver.resume machine checkpoint).result) ∧
      ∀ solver : Solver,
        (machine.verify (checkpoint.semantics.insert seed initial)).result = .ok [] ↔
          ∃ solution, (solver.resume machine checkpoint).result = .ok solution ∧
            solution.convergence = .converged ∧ solution.iterations = 1 ∧
            solution.semantics = checkpoint.semantics.insert seed initial) ∧
    ∀ (solver longer : Solver) (solution : Solution V P), longer.cap = solver.cap + 1 →
      (solver.solve machine).result = .ok solution →
        (solution.convergence = .capReached solver.cap →
          Foretells solution.history.toList (solver.cap + 1)
            (machine.verify solution.semantics).result (longer.solve machine).result) ∧
        (solution.convergence = .converged →
          (machine.verify solution.semantics).result = .ok [] ∧
            (longer.solve machine).result = .ok solution) := by
  constructor
  · intro checkpoint seed initial sameName covers onlySeed given
    have started := resumeValues_of_covers wellFormed sameName covers onlySeed given
    have anchored := anchored_of_resumeValues started
    constructor
    · intro solver onePass
      have atStart : machine.Covers
          (Progress.start (checkpoint.semantics.insert seed initial) :
            Progress V P).semantics := anchored.covers
      rw [result_resume, started, ok_bind, runFrom, onePass]
      exact atStart.verify_foretells wellFormed rfl 1
    · intro solver
      rw [result_resume, started, ok_bind]
      exact anchored.verify_eq_nil_iff solver.cap_pos
  · intro solver longer solution oneMore solved
    refine ⟨verify_foretells_solve oneMore solved, fun converged => ?_⟩
    obtain ⟨values, started, ended⟩ := solve_eq_ok_iff.mp solved
    obtain ⟨last, -, rfl, reaches, -, atMost, -⟩ := runFrom_eq_ok solver.cap_pos ended
    have settled := Progress.solution_isConverged.mp converged
    have atEnd : machine.Anchored last.semantics :=
      reaches.anchored (anchored_of_startValues started)
    obtain ⟨outcome, passed, unchanged, -⟩ := reaches.exists_lastPass wellFormed settled
    constructor
    · show (machine.verify last.semantics).result = .ok []
      rw [result_verify wellFormed atEnd.covers, passed]
      exact congrArg Except.ok unchanged
    · apply (solve_of_converged longer solved converged).1
      show last.passes ≤ longer.cap
      omega

theorem ladder_dry_runs :
    (∃ changed solution,
      (Samples.straightLadder.verify (Samples.astray.semantics.insert "Seed" 1)).result =
          .ok changed ∧
        changed.length = 3 ∧
        (Solver.resume ⟨⟨1⟩, by decide⟩ Samples.straightLadder Samples.astray).result =
          .ok solution ∧
        solution.history.toList = [⟨1, changed⟩]) ∧
    (∃ cut changed longer, (Samples.twoPasses.solve Samples.ladder).result = .ok cut ∧
      (Samples.ladder.verify cut.semantics).result = .ok changed ∧ changed = ["C"] ∧
      (Samples.threePasses.solve Samples.ladder).result = .ok longer ∧
      longer.history.toList = cut.history.toList ++ [⟨3, changed⟩]) ∧
    ∃ cut, (Samples.twoPasses.solve Samples.brokenLadder).result = .ok cut ∧
      (Samples.brokenLadder.verify cut.semantics).result =
        .error (.failed (.operation (.unknownTransition "lift" "up2"))) ∧
      (Samples.threePasses.solve Samples.brokenLadder).result =
        .error (.failed (.operation (.unknownTransition "lift" "up2"))) := by
  have straightWellFormed : Samples.straightLadder.WellFormed :=
    violations_eq_nil_iff.mp (by decide)
  have wellFormed : Samples.ladder.WellFormed := violations_eq_nil_iff.mp (by decide)
  have brokenWellFormed : Samples.brokenLadder.WellFormed :=
    violations_eq_nil_iff.mp (by decide)
  refine ⟨?_, ?_, ?_⟩
  · obtain ⟨⟨⟩, covered⟩ : ∃ accepted,
        Samples.straightLadder.checkCoverage Samples.astray.semantics = .ok accepted :=
      exists_ok_of_isSome (by decide +kernel)
    obtain ⟨changed, verified, several⟩ : ∃ changed,
        (Samples.straightLadder.verify (Samples.astray.semantics.insert "Seed" 1)).result =
          .ok changed ∧ changed.length = 3 :=
      exists_ok_of_any (by decide +kernel)
    have foretells := ((verify_is_dry_run straightWellFormed).1 Samples.astray "Seed" 1 rfl
      (checkCoverage_eq_ok_iff.mp covered) (by decide) rfl).1 ⟨⟨1⟩, by decide⟩ (by decide)
    obtain ⟨solution, resumed, records⟩ := (foretells.ok_iff changed).mp verified
    exact ⟨changed, solution, verified, several, resumed, records⟩
  · obtain ⟨cut, solved, status, reported⟩ : ∃ cut,
        (Samples.twoPasses.solve Samples.ladder).result = .ok cut ∧
          cut.convergence = .capReached 2 ∧
          (Samples.ladder.verify cut.semantics).result.toOption.any (· = ["C"]) = true :=
      exists_ok_of_any (by decide +kernel)
    obtain ⟨changed, verified, thirdRung⟩ := exists_ok_of_any reported
    have foretells := ((verify_is_dry_run wellFormed).2 _ Samples.threePasses cut (by decide)
      solved).1 status
    obtain ⟨longer, further, records⟩ := (foretells.ok_iff changed).mp verified
    exact ⟨cut, changed, longer, solved, verified, thirdRung, further, records⟩
  · obtain ⟨cut, solved, status⟩ : ∃ cut,
        (Samples.twoPasses.solve Samples.brokenLadder).result = .ok cut ∧
          cut.convergence = .capReached 2 :=
      exists_ok_of_any (by decide +kernel)
    have failed : (Samples.threePasses.solve Samples.brokenLadder).result =
        .error (.failed (.operation (.unknownTransition "lift" "up2"))) :=
      eq_error_of_computed (by decide +kernel)
    have foretells := ((verify_is_dry_run brokenWellFormed).2 _ Samples.threePasses cut
      (by decide) solved).1 status
    exact ⟨cut, solved, (foretells.error_iff _).mpr failed, failed⟩

end ReactiveReach.Machine
