import ReactiveReach.Proofs.Run
import ReactiveReach.Samples.Ladder

/-!
# Runs that come to rest

A run stops when a pass changes nothing. No law of a lattice is needed to see that
the values it ends with are then a fixed point: they determine the zones of the
solution, joining what the transitions into a state give yields the value of the
state, verifying reports nothing, and going on from them makes a single pass.
-/

namespace ReactiveReach

variable {V P E : Type} [BEq V] [BEq P]

/-- The outcomes of solving a machine, or of resuming it from some checkpoint. -/
inductive Solver.Returns (solver : Solver) (machine : Machine V P E)
    (solution : Solution V P) : Prop where
  | solved : (solver.solve machine).result = .ok solution → Returns solver machine solution
  | resumed (checkpoint : Checkpoint V) :
      (solver.resume machine checkpoint).result = .ok solution →
      Returns solver machine solution

variable {machine : Machine V P E}

theorem Solver.Returns.exists_run {solver : Solver} {solution : Solution V P}
    (returned : solver.Returns machine solution) :
    ∃ values, machine.Anchored values ∧
      machine.runFrom solver.cap values = .ok solution := by
  rcases returned with solved | ⟨checkpoint, resumed⟩
  · obtain ⟨values, started, ended⟩ := Machine.solve_eq_ok_iff.mp solved
    exact ⟨values, Machine.anchored_of_startValues started, ended⟩
  · rw [Machine.result_resume, bind_eq_ok] at resumed
    obtain ⟨values, started, ended⟩ := resumed
    exact ⟨values, Machine.anchored_of_resumeValues started, ended⟩

namespace Machine

theorem result_verify {values : StateMap V} (wellFormed : machine.WellFormed)
    (covers : machine.Covers values) :
    (machine.verify values).result =
      ((·.changed) <$> (machine.pass machine.incoming values).result).mapError .failed := by
  obtain ⟨seed, -, -, found, -⟩ := wellFormed.exists_seed
  have accepted := checkedSeed_eq_ok_iff.mpr ⟨wellFormed, found⟩
  have covered := checkCoverage_eq_ok_iff.mpr covers
  simp only [verify, Logged.result_bind, Logged.result_ofExcept, Logged.result_mapError,
    Logged.result_pure, accepted, covered]
  cases (machine.pass machine.incoming values).result <;> rfl

theorem runFrom_of_unchanged {cap : Nat} (positive : 0 < cap) {values : StateMap V}
    {outcome : PassOutcome V P}
    (passed : (machine.pass machine.incoming values).result = .ok outcome)
    (unchanged : outcome.changed = []) :
    machine.runFrom cap values =
      .ok ⟨outcome.semantics, outcome.zones, 1, .converged, .ofList [⟨1, []⟩]⟩ := by
  obtain ⟨rest, rfl⟩ := Nat.exists_eq_add_of_lt positive
  have settled : ((Progress.start values : Progress V P).next outcome).settled = true := by
    simp [Progress.next, unchanged]
  have ended : machine.progressAfter (0 + rest + 1) (.start values) =
      .ok ((Progress.start values).next outcome) := by
    rw [progressAfter_succ rfl, bind_eq_ok]
    exact ⟨outcome, passed, progressAfter_of_settled settled _⟩
  rw [runFrom, ended]
  simp only [Progress.next, Progress.start, Progress.solution, unchanged]
  rfl

/-- A run that came to rest, whether it solved the machine or resumed it, ends with
a fixed point. No law of a lattice is assumed: values are only compared. -/
theorem fixedPoint_of_converged {solver : Solver} {solution : Solution V P}
    (returned : solver.Returns machine solution)
    (converged : solution.convergence = .converged) :
    machine.refreshZones solution.semantics = .ok solution.zones ∧
      (∀ state ∈ machine.states, state.isSeed = false → ∃ value joined,
        solution.semantics[state.id]? = some value ∧
          machine.joinedAt solution.semantics solution.zones state.id = .ok joined ∧
          (joined == value) = true) ∧
      (machine.verify solution.semantics).result = .ok [] ∧
      ∀ (other : Solver) (id : String) (createdAt : Instant), ∃ again,
        (other.resume machine (solution.checkpoint id createdAt machine.name)).result =
            .ok again ∧
          again.convergence = .converged ∧ again.iterations = 1 ∧
          again.history.toList = [⟨1, []⟩] ∧
          again.semantics = solution.semantics ∧ again.zones = solution.zones := by
  obtain ⟨values, anchored, ended⟩ := returned.exists_run
  obtain ⟨last, -, rfl, reaches, -, -, -⟩ := runFrom_eq_ok solver.cap_pos ended
  have settled := Progress.solution_isConverged.mp converged
  have atEnd : machine.Anchored last.semantics := reaches.anchored anchored
  obtain ⟨outcome, passed, unchanged, sameValues, sameZones⟩ :=
    reaches.exists_lastPass anchored.wellFormed settled
  have isPass := isPass_of_pass anchored.wellFormed passed
  obtain ⟨refreshed, recomputes, -, -⟩ := isPass
  rw [sameZones] at refreshed recomputes
  refine ⟨refreshed, fun state member ordinary => ?_, ?_, fun other id createdAt => ?_⟩
  · have recomputed : state ∈ machine.recomputed :=
      List.mem_filter.mpr ⟨member, by simp [ordinary]⟩
    obtain ⟨before, after, found, joined, -, changed⟩ := recomputes state recomputed
    rw [unchanged] at changed
    exact ⟨before, after, found, joined, by simpa using changed⟩
  · show (machine.verify last.semantics).result = .ok []
    rw [result_verify atEnd.wellFormed atEnd.covers, passed]
    exact congrArg Except.ok unchanged
  · have started : machine.resumeValues
        ((last.solution solver.cap).checkpoint id createdAt machine.name) =
          .ok last.semantics := resumeValues_of_anchored atEnd rfl rfl
    rw [result_resume, started]
    exact ⟨_, runFrom_of_unchanged other.cap_pos passed unchanged, rfl, rfl, rfl,
      sameValues, sameZones⟩

theorem ladder_comes_to_rest : ∃ solution,
    (Solver.standard.solve Samples.ladder).result = .ok solution ∧
      solution.iterations = 6 ∧ solution.convergence = .converged ∧
      (Samples.ladder.verify solution.semantics).result = .ok [] ∧
      ∀ id createdAt, ∃ again,
        (Solver.standard.resume Samples.ladder
            (solution.checkpoint id createdAt "ladder")).result = .ok again ∧
          again.iterations = 1 ∧ again.semantics = solution.semantics := by
  obtain ⟨solution, solved, counted, converged⟩ :
      ∃ solution, (Solver.standard.solve Samples.ladder).result = .ok solution ∧
        solution.iterations = 6 ∧ solution.convergence = .converged :=
    exists_ok_of_any (by decide +kernel)
  obtain ⟨-, -, verified, resumes⟩ := fixedPoint_of_converged (.solved solved) converged
  refine ⟨solution, solved, counted, converged, verified, fun id createdAt => ?_⟩
  obtain ⟨again, resumed, -, once, -, same, -⟩ := resumes Solver.standard id createdAt
  exact ⟨again, resumed, once, same⟩

end Machine
end ReactiveReach
