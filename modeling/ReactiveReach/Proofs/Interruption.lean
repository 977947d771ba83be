import Mathlib.Algebra.GroupWithZero.Nat
import ReactiveReach.Proofs.FixedPoint

/-!
# Interrupted runs

A run may be cut at a cap and resumed from a checkpoint of its outcome. A resumed
run counts its passes from one and starts with an empty history, so it is placed
after the earlier runs by shifting its pass numbers (`Progress.after`). Advancing
commutes with that placement, and therefore the parts of a run, put one after the
other, are the run that nobody interrupted.
-/

namespace ReactiveReach

variable {V P E : Type}

def PassRecord.shift (entry : PassRecord) (earlier : Nat) : PassRecord :=
  { entry with iteration := earlier + entry.iteration }

namespace Progress

/-- Where a run stands that went on from another, counted from the beginning of
the other. -/
def after (earlier later : Progress V P) : Progress V P where
  semantics := later.semantics
  zones := if later.passes = 0 then earlier.zones else later.zones
  passes := earlier.passes + later.passes
  history := .ofList <|
    earlier.history.toList ++ later.history.toList.map (·.shift earlier.passes)
  settled := later.settled

theorem after_start {progress : Progress V P} (unsettled : progress.settled = false) :
    progress.after (.start progress.semantics) = progress := by
  obtain ⟨semantics, zones, passes, history, settled⟩ := progress
  obtain rfl : settled = false := unsettled
  have same : History.ofList history.toList = history :=
    History.toList_injective (History.toList_ofList _)
  simp [after, start, same]

theorem next_after (earlier later : Progress V P) (outcome : PassOutcome V P) :
    (earlier.after later).next outcome = earlier.after (later.next outcome) := by
  simp only [next, after, Nat.add_assoc, Nat.add_one_ne_zero, if_false, mk.injEq, true_and,
    and_true]
  apply History.toList_injective
  simp [PassRecord.shift]

end Progress

namespace Machine

variable [BEq V] [BEq P] {machine : Machine V P E}

/-- Passes after a cut are the passes of the resumed run, placed after the cut. -/
theorem progressAfter_after (limit : Nat) (earlier later : Progress V P) :
    machine.progressAfter limit (earlier.after later) =
      earlier.after <$> machine.progressAfter limit later := by
  induction limit generalizing later with
  | zero => rfl
  | succ limit ih =>
      cases settled : later.settled with
      | true =>
          rw [progressAfter_of_settled settled,
            progressAfter_of_settled (show (earlier.after later).settled = true from settled)]
          rfl
      | false =>
          rw [progressAfter_succ settled,
            progressAfter_succ (show (earlier.after later).settled = false from settled)]
          simp only [Progress.next_after, ih, map_bind]
          rfl

theorem progressAfter_of_unsettled {progress : Progress V P}
    (unsettled : progress.settled = false) (limit : Nat) :
    machine.progressAfter limit progress =
      progress.after <$> machine.progressAfter limit (.start progress.semantics) := by
  rw [← progressAfter_after, Progress.after_start unsettled]

end Machine

/-- A solver that goes on with an interrupted run, and the identifier and time of
the checkpoint it goes on from. -/
structure Resumption where
  solver : Solver
  checkpointId : String
  takenAt : Instant

namespace Machine

variable [BEq V] [BEq P]

/-- The outcomes of resuming again and again, each time from the outcome before. -/
def resumeAll (machine : Machine V P E) :
    Solution V P → List Resumption → Except (SolveError E) (List (Solution V P))
  | _, [] => .ok []
  | solution, resumption :: rest => do
    let resumed ← (resumption.solver.resume machine
      (solution.checkpoint resumption.checkpointId resumption.takenAt machine.name)).result
    return resumed :: (← machine.resumeAll resumed rest)

/-- The outcomes of solving and then resuming again and again. -/
def solveInParts (machine : Machine V P E) (first : Solver) (rest : List Resumption) :
    Except (SolveError E) (List (Solution V P)) := do
  let solution ← (first.solve machine).result
  return solution :: (← machine.resumeAll solution rest)

/-- The records of runs that go on from each other, numbered from the beginning of
the first. -/
def joinRecords : Nat → List (Solution V P) → List PassRecord
  | _, [] => []
  | earlier, run :: runs =>
    run.history.toList.map (·.shift earlier) ++ joinRecords (earlier + run.iterations) runs

variable {machine : Machine V P E} {values : StateMap V}

theorem result_resume_checkpoint {solution : Solution V P}
    (anchored : machine.Anchored solution.semantics) (solver : Solver) (id : String)
    (createdAt : Instant) :
    (solver.resume machine (solution.checkpoint id createdAt machine.name)).result =
      machine.runFrom solver.cap solution.semantics := by
  have started : machine.resumeValues (solution.checkpoint id createdAt machine.name) =
      .ok solution.semantics := resumeValues_of_anchored anchored rfl rfl
  rw [result_resume, started]
  rfl

def passesAllowed (rest : List Resumption) : Nat :=
  (rest.map (·.solver.cap)).sum

/-- `whole` stands where `runs`, one after the other, have led. -/
structure Continues (whole : Progress V P) (runs : List (Solution V P)) : Prop where
  passes_eq : whole.passes = (runs.map (·.iterations)).sum
  records_eq : whole.history.toList = joinRecords 0 runs
  last_eq : ∃ last, runs.getLast? = some last ∧ whole.semantics = last.semantics ∧
    whole.zones = last.zones ∧
    (whole.settled = true ↔ last.convergence = .converged)

omit [BEq V] [BEq P] in
theorem joinRecords_append (earlier : Nat) (runs : List (Solution V P))
    (last : Solution V P) :
    joinRecords earlier (runs ++ [last]) =
      joinRecords earlier runs ++ last.history.toList.map
        (·.shift (earlier + (runs.map (·.iterations)).sum)) := by
  induction runs generalizing earlier with
  | nil => simp [joinRecords]
  | cons run runs ih =>
      rw [List.cons_append, joinRecords, ih, joinRecords, List.append_assoc]
      simp [Nat.add_assoc]

omit [BEq V] [BEq P] in
theorem Continues.after {whole later : Progress V P} {runs : List (Solution V P)}
    (continues : Continues whole runs) (moved : 0 < later.passes) (cap : Nat) :
    Continues (whole.after later) (runs ++ [later.solution cap]) := by
  refine ⟨?_, ?_, later.solution cap, by simp, rfl, ?_,
    Progress.solution_isConverged.symm⟩
  · simp [Progress.after, Progress.solution, continues.passes_eq]
  · simp [Progress.after, Progress.solution, joinRecords_append, continues.records_eq,
      continues.passes_eq]
  · simp [Progress.after, Progress.solution, Nat.pos_iff_ne_zero.mp moved]

/-- Whether a run reaches a cut, and with which values, does not depend on what led
to the values it goes on from. -/
theorem progressAfter_cases (wellFormed : machine.WellFormed) {whole : Progress V P}
    (reaches : machine.Reaches values whole) (limit : Nat) :
    (∃ fault, machine.progressAfter limit whole = .error fault ∧
      machine.progressAfter limit (.start whole.semantics) = .error fault) ∨
    ∃ reached later, machine.progressAfter limit whole = .ok reached ∧
      machine.progressAfter limit (.start whole.semantics) = .ok later ∧
      reached.semantics = later.semantics := by
  cases settled : whole.settled with
  | false =>
      rw [progressAfter_of_unsettled settled]
      cases machine.progressAfter limit (.start whole.semantics) with
      | error fault => exact .inl ⟨fault, rfl, rfl⟩
      | ok later => exact .inr ⟨whole.after later, later, rfl, rfl, rfl⟩
  | true =>
      obtain ⟨outcome, passed, unchanged, same, -⟩ :=
        reaches.exists_lastPass wellFormed settled
      rw [progressAfter_of_settled settled]
      cases limit with
      | zero => exact .inr ⟨whole, .start whole.semantics, rfl, rfl, rfl⟩
      | succ limit =>
          refine .inr ⟨whole, (Progress.start whole.semantics).next outcome, rfl, ?_, same.symm⟩
          rw [progressAfter_succ rfl, bind_eq_ok]
          exact ⟨outcome, passed,
            progressAfter_of_settled (by simp [Progress.next, unchanged]) limit⟩

theorem resumeAll_eq_error_iff (anchored : machine.Anchored values)
    {whole : Progress V P} (reaches : machine.Reaches values whole)
    {solution : Solution V P} (sameValues : solution.semantics = whole.semantics)
    (rest : List Resumption) (failure : SolveError E) :
    machine.resumeAll solution rest = .error failure ↔
      (machine.progressAfter (passesAllowed rest) whole).mapError .failed =
        .error failure := by
  induction rest generalizing whole solution with
  | nil => simp [resumeAll, passesAllowed, Except.mapError]
  | cons resumption rest ih =>
      have atCut : machine.Anchored solution.semantics :=
        sameValues ▸ reaches.anchored anchored
      have split : passesAllowed (resumption :: rest) =
          resumption.solver.cap + passesAllowed rest := rfl
      rw [resumeAll, result_resume_checkpoint atCut, sameValues, split, progressAfter_add,
        runFrom]
      rcases progressAfter_cases anchored.wellFormed reaches resumption.solver.cap with
        ⟨fault, cut, part⟩ | ⟨reached, later, cut, part, sameCut⟩
      · simp [cut, part, Functor.map, Except.map, bind, Except.bind, Except.mapError]
      · have sameValuesThere :
            (later.solution resumption.solver.cap).semantics = reached.semantics := sameCut.symm
        have onward := ih (reaches.progressAfter cut) sameValuesThere
        rw [cut, part]
        refine Iff.trans ?_ onward
        show ((later.solution resumption.solver.cap :: ·) <$>
          machine.resumeAll (later.solution resumption.solver.cap) rest) = .error failure ↔ _
        cases machine.resumeAll (later.solution resumption.solver.cap) rest <;>
          simp [Functor.map, Except.map]

theorem exists_whole (anchored : machine.Anchored values) {rest : List Resumption}
    {whole : Progress V P} (reaches : machine.Reaches values whole)
    {done runs : List (Solution V P)} {solution : Solution V P}
    (continues : Continues whole (done ++ [solution]))
    (resumed : machine.resumeAll solution rest = .ok runs)
    (capped : ∀ run ∈ (done ++ solution :: runs).dropLast, run.isConverged = false) :
    ∃ last, machine.progressAfter (passesAllowed rest) whole = .ok last ∧
      Continues last (done ++ solution :: runs) := by
  induction rest generalizing whole done solution runs with
  | nil =>
      obtain rfl : runs = [] := by simpa [resumeAll] using resumed.symm
      exact ⟨whole, rfl, continues⟩
  | cons resumption rest ih =>
      obtain ⟨_, isLast, sameValues, -, sameStatus⟩ := continues.last_eq
      obtain rfl : solution = _ := by simpa using isLast
      have atCut : machine.Anchored solution.semantics :=
        sameValues ▸ reaches.anchored anchored
      simp only [resumeAll, result_resume_checkpoint atCut, bind_eq_ok, pure_eq_ok] at resumed
      obtain ⟨next, ended, tail, resumed, rfl⟩ := resumed
      obtain ⟨later, reached, rfl, -, moved, -, -⟩ :=
        runFrom_eq_ok resumption.solver.cap_pos ended
      have unsettled : whole.settled = false := by
        have notConverged := capped solution (by simp)
        rw [Solution.isConverged, decide_eq_false_iff_not, ← sameStatus] at notConverged
        simpa using notConverged
      have cut : machine.progressAfter resumption.solver.cap whole =
          .ok (whole.after later) := by
        rw [progressAfter_of_unsettled unsettled, sameValues, reached]
        rfl
      have further := continues.after moved resumption.solver.cap
      have regroup : ∀ runs : List (Solution V P),
          done ++ solution :: runs = (done ++ [solution]) ++ runs := by simp
      obtain ⟨last, reached, continuesLast⟩ := ih (reaches.progressAfter cut) further resumed
        (by rwa [regroup] at capped)
      refine ⟨last, ?_, by rwa [regroup]⟩
      show machine.progressAfter (resumption.solver.cap + passesAllowed rest) whole = .ok last
      rw [progressAfter_add, cut]
      exact reached

omit [BEq V] [BEq P] in
theorem continues_solution {last : Progress V P} (cap : Nat) :
    Continues last [last.solution cap] := by
  refine ⟨by simp [Progress.solution], ?_, last.solution cap, rfl, rfl, rfl,
    Progress.solution_isConverged.symm⟩
  simp [joinRecords, PassRecord.shift, Progress.solution]

theorem solve_eq_error_iff {direct first : Solver} {rest : List Resumption}
    (sameCap : direct.cap = first.cap + passesAllowed rest) (failure : SolveError E) :
    (direct.solve machine).result = .error failure ↔
      machine.solveInParts first rest = .error failure := by
  rw [solveInParts, result_solve, result_solve, sameCap]
  cases started : machine.startValues with
  | error failed => simp [bind, Except.bind]
  | ok values =>
      have anchored := anchored_of_startValues started
      show machine.runFrom (first.cap + passesAllowed rest) values = _ ↔
        (machine.runFrom first.cap values >>= fun solution =>
          (solution :: ·) <$> machine.resumeAll solution rest) = _
      rw [runFrom, map_eq_error, progressAfter_add, runFrom]
      cases part : machine.progressAfter first.cap (.start values) with
      | error fault => simp [Functor.map, Except.map, bind, Except.bind, Except.mapError]
      | ok reached =>
          have sameValues : (reached.solution first.cap).semantics = reached.semantics := rfl
          have onward := resumeAll_eq_error_iff anchored (Reaches.start.progressAfter part)
            sameValues rest failure
          refine onward.symm.trans ?_
          exact map_eq_error.symm

theorem solve_of_solveInParts {direct first : Solver} {rest : List Resumption}
    (sameCap : direct.cap = first.cap + passesAllowed rest) {runs : List (Solution V P)}
    (solved : machine.solveInParts first rest = .ok runs)
    (capped : ∀ run ∈ runs.dropLast, run.isConverged = false) :
    ∃ last : Progress V P, (direct.solve machine).result = .ok (last.solution direct.cap) ∧
      Continues last runs := by
  simp only [solveInParts, result_solve, bind_eq_ok, pure_eq_ok] at solved
  obtain ⟨solution, ⟨values, started, ended⟩, runs, resumed, rfl⟩ := solved
  obtain ⟨part, cut, rfl, reaches, -⟩ := runFrom_eq_ok first.cap_pos ended
  have continuesCut : Continues part ([] ++ [part.solution first.cap]) :=
    continues_solution first.cap
  obtain ⟨last, reached, continues⟩ :=
    exists_whole (anchored_of_startValues started) reaches continuesCut resumed capped
  refine ⟨last, ?_, continues⟩
  rw [result_solve, started, sameCap]
  show machine.runFrom (first.cap + passesAllowed rest) values = _
  rw [runFrom, progressAfter_add, cut]
  show (·.solution (first.cap + passesAllowed rest)) <$>
    (machine.progressAfter (passesAllowed rest) part).mapError SolveError.failed = _
  rw [reached]
  rfl

theorem solve_of_converged {solver : Solver} (other : Solver) {solution : Solution V P}
    (solved : (solver.solve machine).result = .ok solution)
    (converged : solution.convergence = .converged) :
    (solution.iterations ≤ other.cap → (other.solve machine).result = .ok solution) ∧
      (other.cap < solution.iterations → ∃ capped,
        (other.solve machine).result = .ok capped ∧
          capped.convergence = .capReached other.cap) := by
  obtain ⟨values, started, ended⟩ := solve_eq_ok_iff.mp solved
  obtain ⟨last, reached, rfl, -⟩ := runFrom_eq_ok solver.cap_pos ended
  have settled := Progress.solution_isConverged.mp converged
  rw [result_solve, started]
  have fromStart (cap : Nat) : (Progress.start values : Progress V P).passes + cap = cap :=
    Nat.zero_add cap
  constructor
  · intro enough
    have same : machine.progressAfter other.cap (.start values) = .ok last :=
      progressAfter_of_enough reached settled ((fromStart _).symm ▸ enough)
    show machine.runFrom other.cap values = _
    rw [runFrom, same]
    simp [Except.mapError, Functor.map, Except.map, Progress.solution, settled]
  · intro tooFew
    have fewer : (Progress.start values : Progress V P).passes + other.cap < last.passes :=
      (fromStart _).symm ▸ tooFew
    obtain ⟨capped, reached, unsettled⟩ := progressAfter_of_too_few reached fewer
    refine ⟨capped.solution other.cap, ?_, by simp [Progress.solution, unsettled]⟩
    show machine.runFrom other.cap values = _
    rw [runFrom, reached]
    rfl

/-- Interrupting a run does not change its outcome. A machine solved under a cap and
then resumed from checkpoints under further caps fails like the machine solved at
once with all the passes, and where it does not fail, what the last run ends with
is what solving at once ends with, in as many passes and with the same records.
A run that converges does so in the same way under every cap that suffices. -/
theorem solve_in_parts (machine : Machine V P E) :
    (∀ (direct first : Solver) (rest : List Resumption),
      direct.cap = first.cap + passesAllowed rest →
        (∀ failure, (direct.solve machine).result = .error failure ↔
          machine.solveInParts first rest = .error failure) ∧
        ∀ runs, machine.solveInParts first rest = .ok runs →
          (∀ run ∈ runs.dropLast, run.isConverged = false) →
          ∃ whole last, (direct.solve machine).result = .ok whole ∧
            runs.getLast? = some last ∧ whole.semantics = last.semantics ∧
            whole.zones = last.zones ∧ whole.isConverged = last.isConverged ∧
            whole.iterations = (runs.map (·.iterations)).sum ∧
            whole.history.toList = joinRecords 0 runs) ∧
    ∀ (solver other : Solver) (solution : Solution V P),
      (solver.solve machine).result = .ok solution → solution.convergence = .converged →
        (solution.iterations ≤ other.cap → (other.solve machine).result = .ok solution) ∧
        (other.cap < solution.iterations → ∃ capped,
          (other.solve machine).result = .ok capped ∧
            capped.convergence = .capReached other.cap) := by
  refine ⟨fun direct first rest sameCap => ⟨solve_eq_error_iff sameCap, ?_⟩,
    fun _ other _ => solve_of_converged other⟩
  intro runs solved capped
  obtain ⟨last, direct, passes, records, final, isLast, sameValues, sameZones, sameStatus⟩ :=
    solve_of_solveInParts sameCap solved capped
  refine ⟨_, final, direct, isLast, sameValues, sameZones, ?_, passes, records⟩
  rw [Solution.isConverged, Solution.isConverged, decide_eq_decide, ← sameStatus]
  exact Progress.solution_isConverged

theorem ladder_in_parts : ∃ runs whole capped,
    Samples.ladder.solveInParts Samples.twoPasses
        [⟨Samples.threePasses, "two", Samples.earlyMorning⟩,
          ⟨Samples.twoPasses, "five", Samples.earlyMorning⟩] = .ok runs ∧
      runs.map (·.iterations) = [2, 3, 1] ∧
      (Solver.solve ⟨⟨7⟩, by decide⟩ Samples.ladder).result = .ok whole ∧
      whole.isConverged = true ∧ whole.iterations = 6 ∧
      whole.history.toList = joinRecords 0 runs ∧
      (Samples.twoPasses.solve Samples.ladder).result = .ok capped ∧
      capped.convergence = .capReached 2 := by
  obtain ⟨runs, solved, counted, unconverged, ended⟩ : ∃ runs,
      Samples.ladder.solveInParts Samples.twoPasses
          [⟨Samples.threePasses, "two", Samples.earlyMorning⟩,
            ⟨Samples.twoPasses, "five", Samples.earlyMorning⟩] = .ok runs ∧
        runs.map (·.iterations) = [2, 3, 1] ∧
        (∀ run ∈ runs.dropLast, run.isConverged = false) ∧
        runs.getLast?.map (·.isConverged) = some true :=
    exists_ok_of_any (by decide +kernel)
  obtain ⟨whole, last, direct, isLast, -, -, sameStatus, passes, records⟩ :=
    ((solve_in_parts Samples.ladder).1 ⟨⟨7⟩, by decide⟩ _ _ (by decide)).2 runs solved
      unconverged
  rw [isLast] at ended
  have converged : whole.isConverged = true := by
    rw [sameStatus]
    simpa using ended
  have counts : whole.iterations = 6 := by
    rw [passes, counted]
    rfl
  have tooFew : Samples.twoPasses.cap < whole.iterations := by
    rw [counts]
    decide
  obtain ⟨capped, partly, status⟩ :=
    ((solve_in_parts Samples.ladder).2 ⟨⟨7⟩, by decide⟩ Samples.twoPasses whole direct
      (of_decide_eq_true converged)).2 tooFew
  exact ⟨runs, whole, capped, solved, counted, direct, converged, counts, records, partly,
    status⟩

end Machine
end ReactiveReach
