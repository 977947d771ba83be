import ReactiveReach.Proofs.Start

/-!
# Runs

From its first values on a run is a sequence of passes, each from the values of the
one before, until a pass changes nothing or the cap is reached. `Machine.Reaches`
is that sequence as an inductive relation, so that what every pass preserves holds
at the end of every run, and `Machine.iterates` are the values after a number of
passes, whether or not a run would still make them.
-/

namespace ReactiveReach

variable {V P E : Type}

namespace Progress

/-- Where a run stands after one more pass. -/
def next (progress : Progress V P) (outcome : PassOutcome V P) : Progress V P where
  semantics := outcome.semantics
  zones := outcome.zones
  passes := progress.passes + 1
  history := progress.history.record ⟨progress.passes + 1, outcome.changed⟩
  settled := outcome.changed.isEmpty

theorem result_advance [BEq V] [BEq P] (machine : Machine V P E)
    (grouped : StateMap (List (State × Transition P))) (progress : Progress V P) :
    (progress.advance machine grouped).result =
      progress.next <$> (machine.pass grouped progress.semantics).result := by
  simp only [advance, Logged.result_bind, Logged.result_emit, Logged.result_pure]
  cases (machine.pass grouped progress.semantics).result <;> rfl

end Progress

namespace Machine

variable [BEq V] [BEq P]

/-- The values after a number of passes. -/
def iterates (machine : Machine V P E) (values : StateMap V) :
    Nat → Except (Fault E) (StateMap V)
  | 0 => .ok values
  | passes + 1 => do
    let earlier ← machine.iterates values passes
    let outcome ← (machine.pass machine.incoming earlier).result
    return outcome.semantics

/-- Where a run stands after at most `limit` further passes. -/
def progressAfter (machine : Machine V P E) (limit : Nat) (progress : Progress V P) :
    Except (Fault E) (Progress V P) :=
  (Logged.iterate (Progress.advance machine machine.incoming) (·.settled) limit
    progress).result

/-- What a run from some values ends with. -/
def runFrom (machine : Machine V P E) (cap : Nat) (values : StateMap V) :
    Except (SolveError E) (Solution V P) :=
  (·.solution cap) <$> (machine.progressAfter cap (.start values)).mapError .failed

def valuesAfter (machine : Machine V P E) (passes : Nat) :
    Except (SolveError E) (StateMap V) := do
  let values ← machine.startValues
  (machine.iterates values passes).mapError .failed

/-- Where a run from some values can stand between two passes. -/
inductive Reaches (machine : Machine V P E) (values : StateMap V) : Progress V P → Prop where
  | start : Reaches machine values (.start values)
  | pass {progress : Progress V P} {outcome : PassOutcome V P} :
      Reaches machine values progress → progress.settled = false →
      (machine.pass machine.incoming progress.semantics).result = .ok outcome →
      Reaches machine values (progress.next outcome)

variable {machine : Machine V P E}

@[simp]
theorem progressAfter_zero (progress : Progress V P) :
    machine.progressAfter 0 progress = .ok progress :=
  rfl

theorem progressAfter_of_settled {progress : Progress V P} (settled : progress.settled = true)
    (limit : Nat) : machine.progressAfter limit progress = .ok progress := by
  cases limit with
  | zero => rfl
  | succ limit => simp [progressAfter, Logged.iterate_succ, settled]

theorem progressAfter_succ {progress : Progress V P} (unsettled : progress.settled = false)
    (limit : Nat) :
    machine.progressAfter (limit + 1) progress =
      (machine.pass machine.incoming progress.semantics).result >>= fun outcome =>
        machine.progressAfter limit (progress.next outcome) := by
  simp only [progressAfter, Logged.iterate_succ, unsettled, Bool.false_eq_true, if_false,
    Logged.result_bind, Progress.result_advance]
  cases (machine.pass machine.incoming progress.semantics).result <;> rfl

/-- A run may be cut after any number of passes. -/
theorem progressAfter_add (first second : Nat) (progress : Progress V P) :
    machine.progressAfter (first + second) progress =
      machine.progressAfter first progress >>= machine.progressAfter second := by
  induction first generalizing progress with
  | zero => simp only [Nat.zero_add, progressAfter_zero]; rfl
  | succ first ih =>
      rw [Nat.add_right_comm]
      cases settled : progress.settled with
      | true =>
          simp only [progressAfter_of_settled settled]
          exact (progressAfter_of_settled settled second).symm
      | false =>
          simp only [progressAfter_succ settled, bind_assoc]
          exact bind_congr fun outcome => ih _

theorem iterates_succ_eq_ok {values later : StateMap V} {passes : Nat} :
    machine.iterates values (passes + 1) = .ok later ↔
      ∃ earlier outcome, machine.iterates values passes = .ok earlier ∧
        (machine.pass machine.incoming earlier).result = .ok outcome ∧
        outcome.semantics = later := by
  simp only [iterates, bind_eq_ok, pure_eq_ok]
  constructor
  · rintro ⟨earlier, reached, outcome, passed, equal⟩
    exact ⟨earlier, outcome, reached, passed, equal⟩
  · rintro ⟨earlier, outcome, reached, passed, equal⟩
    exact ⟨earlier, reached, outcome, passed, equal⟩

/-- Once a pass ends with the values it began with, all later ones do. -/
theorem iterates_of_unchanged {values rest : StateMap V} {passes later : Nat}
    (iterated : machine.iterates values passes = .ok rest) {outcome : PassOutcome V P}
    (passed : (machine.pass machine.incoming rest).result = .ok outcome)
    (same : outcome.semantics = rest) (onward : passes ≤ later) :
    machine.iterates values later = .ok rest := by
  induction onward with
  | refl => exact iterated
  | step _ ih => exact iterates_succ_eq_ok.mpr ⟨rest, outcome, ih, passed, same⟩

theorem exists_iterates_of_le {values reached : StateMap V} {passes fewer : Nat}
    (iterated : machine.iterates values passes = .ok reached) (le : fewer ≤ passes) :
    ∃ earlier, machine.iterates values fewer = .ok earlier := by
  induction le generalizing reached with
  | refl => exact ⟨reached, iterated⟩
  | step _ ih =>
      obtain ⟨earlier, -, before, -⟩ := iterates_succ_eq_ok.mp iterated
      exact ih before

theorem valuesAfter_eq_ok_iff {passes : Nat} {reached : StateMap V} :
    machine.valuesAfter passes = .ok reached ↔ ∃ values, machine.startValues = .ok values ∧
      machine.iterates values passes = .ok reached := by
  simp only [valuesAfter, bind_eq_ok, mapError_eq_ok]

theorem Anchored.iterates {values later : StateMap V} (anchored : machine.Anchored values)
    {passes : Nat} (reached : machine.iterates values passes = .ok later) :
    machine.Anchored later := by
  induction passes generalizing later with
  | zero =>
      obtain rfl : values = later := by simpa [Machine.iterates] using reached
      exact anchored
  | succ passes ih =>
      obtain ⟨earlier, outcome, before, passed, rfl⟩ := iterates_succ_eq_ok.mp reached
      exact (ih before).pass passed

theorem result_run (solver : Solver) (values : StateMap V) :
    (solver.run machine values).result = machine.runFrom solver.cap values := by
  simp only [Solver.run, runFrom, progressAfter, Logged.result_bind, Logged.result_mapError]
  cases (Logged.iterate (Progress.advance machine machine.incoming) (·.settled) solver.cap
      (.start values)).result with
  | error fault => rfl
  | ok last =>
      obtain ⟨semantics, zones, passes, history, settled⟩ := last
      cases settled <;> rfl

theorem result_solve (solver : Solver) :
    (solver.solve machine).result = machine.startValues >>= machine.runFrom solver.cap := by
  simp only [Solver.solve, startValues, Logged.result_bind, Logged.result_ofExcept,
    Logged.result_emit, result_run, bind_assoc]
  rfl

theorem solve_eq_ok_iff {solver : Solver} {solution : Solution V P} :
    (solver.solve machine).result = .ok solution ↔ ∃ values,
      machine.startValues = .ok values ∧ machine.runFrom solver.cap values = .ok solution := by
  rw [result_solve, bind_eq_ok]

theorem result_resume (solver : Solver) (checkpoint : Checkpoint V) :
    (solver.resume machine checkpoint).result =
      machine.resumeValues checkpoint >>= machine.runFrom solver.cap := by
  by_cases sameName : checkpoint.machine = machine.name
  · simp only [Solver.resume, resumeValues, sameName, ne_eq, not_true_eq_false, if_false,
      Logged.result_bind, Logged.result_ofExcept, Logged.result_emit, result_run,
      bind_assoc]
    rfl
  · simp only [Solver.resume, resumeValues, sameName, ne_eq, not_false_eq_true, if_true,
      Logged.result_bind, Logged.result_ofExcept, bind_assoc]
    rfl

/-- A run stops short of the passes it may still make only by settling. -/
theorem passes_of_progressAfter {limit : Nat} {progress last : Progress V P}
    (ended : machine.progressAfter limit progress = .ok last) :
    progress.passes ≤ last.passes ∧ last.passes ≤ progress.passes + limit ∧
      (last.settled = false → last.passes = progress.passes + limit) := by
  induction limit generalizing progress with
  | zero =>
      obtain rfl : progress = last := by simpa using ended
      exact ⟨Nat.le_refl _, Nat.le_refl _, fun _ => rfl⟩
  | succ limit ih =>
      cases settled : progress.settled with
      | true =>
          obtain rfl : progress = last := by
            simpa [progressAfter_of_settled settled] using ended
          exact ⟨Nat.le_refl _, Nat.le_add_right _ _, by simp [settled]⟩
      | false =>
          rw [progressAfter_succ settled, bind_eq_ok] at ended
          obtain ⟨outcome, -, ended⟩ := ended
          obtain ⟨atLeast, atMost, exactly⟩ := ih ended
          simp only [Progress.next] at atLeast atMost exactly
          exact ⟨by omega, by omega, fun unsettled => by rw [exactly unsettled]; omega⟩

theorem progressAfter_of_enough {limit other : Nat} {progress last : Progress V P}
    (ended : machine.progressAfter limit progress = .ok last) (settled : last.settled = true)
    (enough : last.passes ≤ progress.passes + other) :
    machine.progressAfter other progress = .ok last := by
  induction limit generalizing progress other with
  | zero =>
      obtain rfl : progress = last := by simpa using ended
      exact progressAfter_of_settled settled other
  | succ limit ih =>
      cases before : progress.settled with
      | true =>
          rw [progressAfter_of_settled before] at ended ⊢
          exact ended
      | false =>
          rw [progressAfter_succ before, bind_eq_ok] at ended
          obtain ⟨outcome, passed, ended⟩ := ended
          have grows : progress.passes + 1 ≤ last.passes := (passes_of_progressAfter ended).1
          obtain ⟨rest, rfl⟩ : ∃ rest, other = rest + 1 := ⟨other - 1, by omega⟩
          rw [progressAfter_succ before, bind_eq_ok]
          refine ⟨outcome, passed, ih ended ?_⟩
          simp only [Progress.next]
          omega

theorem progressAfter_of_too_few {limit other : Nat} {progress last : Progress V P}
    (ended : machine.progressAfter limit progress = .ok last)
    (tooFew : progress.passes + other < last.passes) :
    ∃ capped, machine.progressAfter other progress = .ok capped ∧
      capped.settled = false := by
  induction limit generalizing progress other with
  | zero =>
      obtain rfl : progress = last := by simpa using ended
      omega
  | succ limit ih =>
      cases before : progress.settled with
      | true =>
          obtain rfl : progress = last := by
            simpa [progressAfter_of_settled before] using ended
          omega
      | false =>
          cases other with
          | zero => exact ⟨progress, rfl, before⟩
          | succ other =>
              rw [progressAfter_succ before, bind_eq_ok] at ended
              obtain ⟨outcome, passed, ended⟩ := ended
              have fewer : (progress.next outcome).passes + other < last.passes := by
                simp only [Progress.next]
                omega
              obtain ⟨capped, reached, unsettled⟩ := ih ended fewer
              refine ⟨capped, ?_, unsettled⟩
              rw [progressAfter_succ before, bind_eq_ok]
              exact ⟨outcome, passed, reached⟩

namespace Reaches

variable {values : StateMap V} {progress : Progress V P}

/-- Passes that a run still makes continue what it has reached. -/
theorem progressAfter (reaches : machine.Reaches values progress) {limit : Nat}
    {last : Progress V P} (ended : machine.progressAfter limit progress = .ok last) :
    machine.Reaches values last := by
  induction limit generalizing progress with
  | zero =>
      obtain rfl : progress = last := by simpa using ended
      exact reaches
  | succ limit ih =>
      cases settled : progress.settled with
      | true =>
          obtain rfl : progress = last := by
            simpa [progressAfter_of_settled settled] using ended
          exact reaches
      | false =>
          rw [progressAfter_succ settled, bind_eq_ok] at ended
          obtain ⟨outcome, passed, ended⟩ := ended
          exact ih (reaches.pass settled passed) ended

theorem anchored (reaches : machine.Reaches values progress)
    (anchored : machine.Anchored values) : machine.Anchored progress.semantics := by
  induction reaches with
  | start => exact anchored
  | pass _ _ passed ih => exact ih.pass passed

theorem iterates_eq (reaches : machine.Reaches values progress) :
    machine.iterates values progress.passes = .ok progress.semantics := by
  induction reaches with
  | start => rfl
  | pass _ _ passed ih =>
      exact iterates_succ_eq_ok.mpr ⟨_, _, ih, passed, rfl⟩

theorem exists_lastPass (reaches : machine.Reaches values progress)
    (wellFormed : machine.WellFormed) (settled : progress.settled = true) :
    ∃ outcome, (machine.pass machine.incoming progress.semantics).result = .ok outcome ∧
      outcome.changed = [] ∧ outcome.semantics = progress.semantics ∧
      outcome.zones = progress.zones := by
  cases reaches with
  | start => simp [Progress.start] at settled
  | @pass earlier outcome _ _ passed =>
      have unchanged : outcome.changed = [] := by simpa [Progress.next] using settled
      have same := (isPass_of_pass wellFormed passed).semantics_eq unchanged
      refine ⟨outcome, ?_, unchanged, rfl, rfl⟩
      rw [Progress.next, same, passed]

theorem iterates_of_settled (reaches : machine.Reaches values progress)
    (wellFormed : machine.WellFormed) (settled : progress.settled = true)
    {passes : Nat} (later : progress.passes ≤ passes) :
    machine.iterates values passes = .ok progress.semantics := by
  obtain ⟨outcome, passed, -, same, -⟩ := reaches.exists_lastPass wellFormed settled
  exact iterates_of_unchanged reaches.iterates_eq passed same later

theorem exists_of_mem_history (reaches : machine.Reaches values progress)
    {entry : PassRecord} (member : entry ∈ progress.history.toList) :
    ∃ passes earlier outcome, entry = ⟨passes + 1, outcome.changed⟩ ∧
      passes < progress.passes ∧ machine.iterates values passes = .ok earlier ∧
      (machine.pass machine.incoming earlier).result = .ok outcome := by
  induction reaches with
  | start => simp [Progress.start] at member
  | @pass earlier outcome reached _ passed ih =>
      rw [Progress.next, History.toList_record, List.mem_append, List.mem_singleton] at member
      rcases member with older | rfl
      · obtain ⟨passes, values, outcome, equal, before, rest⟩ := ih older
        exact ⟨passes, values, outcome, equal, Nat.lt_succ_of_lt before, rest⟩
      · exact ⟨earlier.passes, earlier.semantics, outcome, rfl, Nat.lt_succ_self _,
          reached.iterates_eq, passed⟩

theorem sublist_of_mem_history (reaches : machine.Reaches values progress)
    (wellFormed : machine.WellFormed) {entry : PassRecord}
    (member : entry ∈ progress.history.toList) :
    entry.changed.Sublist (machine.recomputed.map (·.id)) := by
  obtain ⟨passes, earlier, outcome, rfl, -, -, passed⟩ := reaches.exists_of_mem_history member
  exact (isPass_of_pass wellFormed passed).in_order

end Reaches

/-- What a run with a positive cap ends with, in terms of where it stood last. -/
theorem runFrom_eq_ok {cap : Nat} (positive : 0 < cap) {values : StateMap V}
    {solution : Solution V P} (ended : machine.runFrom cap values = .ok solution) :
    ∃ last : Progress V P, machine.progressAfter cap (.start values) = .ok last ∧
      last.solution cap = solution ∧ machine.Reaches values last ∧
      0 < last.passes ∧ last.passes ≤ cap ∧
      (last.settled = false → last.passes = cap) := by
  simp only [runFrom, map_eq_ok, mapError_eq_ok] at ended
  obtain ⟨last, ended, rfl⟩ := ended
  have reaches : machine.Reaches values last := Reaches.start.progressAfter ended
  obtain ⟨-, atMost, exactly⟩ := passes_of_progressAfter ended
  simp only [Progress.start, Nat.zero_add] at atMost exactly
  refine ⟨last, ended, rfl, reaches, ?_, atMost, exactly⟩
  -- A run that has not moved is unsettled, so it would have used up the cap.
  rcases reaches with _ | _
  · have := exactly rfl
    omega
  · exact Nat.succ_pos _

/-- A run ends with the values after as many passes as its cap allows, also when it
stops earlier: the passes it leaves out would change nothing. -/
theorem iterates_of_runFrom {cap : Nat} (positive : 0 < cap) {values : StateMap V}
    (wellFormed : machine.WellFormed) {solution : Solution V P}
    (ended : machine.runFrom cap values = .ok solution) :
    machine.iterates values cap = .ok solution.semantics := by
  obtain ⟨last, -, rfl, reaches, -, atMost, exactly⟩ := runFrom_eq_ok positive ended
  cases settled : last.settled with
  | true => exact reaches.iterates_of_settled wellFormed settled atMost
  | false =>
      rw [← exactly settled]
      exact reaches.iterates_eq

end Machine

theorem Solver.cap_pos (solver : Solver) : 0 < solver.cap := by
  have allowed := solver.allows_pass
  rw [Solver.cap, Nat.pos_iff_ne_zero]
  exact fun none => allowed (UInt64.toNat_inj.mp none)

theorem Machine.valuesAfter_of_solve [BEq V] [BEq P] {machine : Machine V P E} {solver : Solver}
    {solution : Solution V P} (solved : (solver.solve machine).result = .ok solution) :
    machine.valuesAfter solution.iterations = .ok solution.semantics ∧
      machine.valuesAfter solver.cap = .ok solution.semantics := by
  obtain ⟨values, started, ended⟩ := solve_eq_ok_iff.mp solved
  have wellFormed := (anchored_of_startValues started).wellFormed
  have atCap := iterates_of_runFrom solver.cap_pos wellFormed ended
  obtain ⟨last, -, rfl, reaches, -⟩ := runFrom_eq_ok solver.cap_pos ended
  exact ⟨valuesAfter_eq_ok_iff.mpr ⟨values, started, reaches.iterates_eq⟩,
    valuesAfter_eq_ok_iff.mpr ⟨values, started, atCap⟩⟩

theorem Progress.solution_isConverged {progress : Progress V P} {cap : Nat} :
    (progress.solution cap).convergence = .converged ↔ progress.settled = true := by
  cases settled : progress.settled <;> simp [Progress.solution, settled]

end ReactiveReach
