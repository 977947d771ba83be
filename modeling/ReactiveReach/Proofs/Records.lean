import Mathlib.Data.List.Range
import ReactiveReach.Proofs.FixedPoint

/-!
# What a run reports about itself

A run keeps a number of passes, a record of each pass, a flag and the values, and
its verdict is read off the flag at the end. `Progress.Recorded` says how these
agree between any two passes, so that the verdict, the number of passes and the
records of a solution cannot contradict each other.
-/

namespace ReactiveReach

variable {V P E : Type}

/-- The number of passes, the records and the flag of a run tell the same story. -/
structure Progress.Recorded (progress : Progress V P) : Prop where
  numbered : progress.history.toList.map (·.iteration) = List.range' 1 progress.passes
  changing : ∀ entry ∈ progress.history.toList.dropLast, entry.changed ≠ []
  settled_iff : progress.settled = true ↔
    ∃ last, progress.history.last? = some last ∧ last.changed = []

namespace Progress.Recorded

variable {progress : Progress V P}

theorem length_eq (recorded : progress.Recorded) :
    progress.history.length = progress.passes := by
  have lengths := congrArg List.length recorded.numbered
  rwa [List.length_map, List.length_range', ← History.length_eq] at lengths

/-- Before a run is settled, every pass on record has changed something. -/
theorem changed_ne_nil (recorded : progress.Recorded) (unsettled : progress.settled = false)
    {entry : PassRecord} (member : entry ∈ progress.history.toList) : entry.changed ≠ [] := by
  intro unchanged
  have nonempty := List.ne_nil_of_mem member
  rw [← List.dropLast_append_getLast nonempty, List.mem_append, List.mem_singleton] at member
  rcases member with earlier | isLast
  · exact recorded.changing entry earlier unchanged
  · have last : progress.history.last? = some entry := by
      rw [History.last?_eq, List.getLast?_eq_some_getLast nonempty, isLast]
    have settled := recorded.settled_iff.mpr ⟨entry, last, unchanged⟩
    simp [unsettled] at settled

theorem start (values : StateMap V) : (Progress.start values : Progress V P).Recorded :=
  ⟨rfl, by simp [Progress.start], by simp [Progress.start]⟩

theorem next (recorded : progress.Recorded) (unsettled : progress.settled = false)
    (outcome : PassOutcome V P) : (progress.next outcome).Recorded where
  numbered := by
    simp only [Progress.next, History.toList_record, List.map_append, List.map_singleton,
      recorded.numbered, List.range'_concat, Nat.one_mul, Nat.add_comm]
  changing := by
    intro entry member
    simp only [Progress.next, History.toList_record, List.dropLast_concat] at member
    exact recorded.changed_ne_nil unsettled member
  settled_iff := by simp [Progress.next]

end Progress.Recorded

namespace Machine

variable [BEq V] [BEq P] {machine : Machine V P E}

theorem Reaches.recorded {values : StateMap V} {progress : Progress V P}
    (reaches : machine.Reaches values progress) : progress.Recorded := by
  induction reaches with
  | start => exact .start values
  | @pass earlier outcome _ unsettled _ ih => exact ih.next unsettled outcome

/-- What a solution says about the run that found it is true. The run made as many
passes as it says, at least one and no more than were allowed, and kept a record of
each under its number. All of them but the last changed something; if the last did not
the run converged, and otherwise it used up what it was allowed. Each record lists
states other than the seed, in the order of the machine. -/
theorem run_reports_itself {solver : Solver} {solution : Solution V P}
    (returned : solver.Returns machine solution) :
    (1 ≤ solution.iterations ∧ solution.iterations ≤ solver.cap) ∧
      solution.history.length = solution.iterations ∧
      solution.history.toList.map (·.iteration) = List.range' 1 solution.iterations ∧
      (∀ entry ∈ solution.history.toList.dropLast, entry.changed ≠ []) ∧
      (∃ last, solution.history.last? = some last ∧
        (solution.convergence = .converged ↔ last.changed = []) ∧
        (last.changed ≠ [] → solution.convergence = .capReached solver.cap ∧
          solution.iterations = solver.cap)) ∧
      ∀ entry ∈ solution.history.toList, entry.changed.Nodup ∧
        entry.changed.Sublist ((machine.states.filter (!·.isSeed)).map (·.id)) := by
  obtain ⟨values, anchored, ended⟩ := returned.exists_run
  obtain ⟨progress, -, rfl, reaches, moved, allowed, capped⟩ :=
    runFrom_eq_ok solver.cap_pos ended
  have recorded := reaches.recorded
  have length : progress.history.length = progress.passes := recorded.length_eq
  refine ⟨⟨moved, allowed⟩, length, recorded.numbered, recorded.changing, ?_, ?_⟩
  · have nonempty : progress.history.toList ≠ [] := by
      rw [← List.length_pos_iff, ← History.length_eq, length]
      exact moved
    have last : progress.history.last? = some (progress.history.toList.getLast nonempty) := by
      rw [History.last?_eq, List.getLast?_eq_some_getLast nonempty]
    have settled_iff : progress.settled = true ↔
        (progress.history.toList.getLast nonempty).changed = [] := by
      simp [recorded.settled_iff, last]
    refine ⟨_, last, Progress.solution_isConverged.trans settled_iff, fun changed => ?_⟩
    have unsettled : progress.settled = false := by
      rw [← Bool.not_eq_true, settled_iff]
      exact changed
    exact ⟨by simp [Progress.solution, unsettled], capped unsettled⟩
  · intro entry member
    have inOrder := reaches.sublist_of_mem_history anchored.wellFormed member
    exact ⟨anchored.wellFormed.recomputed_nodup.sublist inOrder, inOrder⟩

/-- The ladder converges in its sixth pass, and is still changing after two. -/
theorem ladder_reports_itself : ∃ whole capped,
    (Solver.standard.solve Samples.ladder).result = .ok whole ∧
      whole.history.length = 6 ∧ whole.convergence = .converged ∧
      (∃ last, whole.history.last? = some last ∧ last.changed = []) ∧
      (Samples.twoPasses.solve Samples.ladder).result = .ok capped ∧
      capped.history.toList.map (·.iteration) = [1, 2] ∧
      capped.convergence = .capReached 2 := by
  obtain ⟨whole, solved, counted, converged⟩ :
      ∃ solution, (Solver.standard.solve Samples.ladder).result = .ok solution ∧
        solution.iterations = 6 ∧ solution.convergence = .converged :=
    exists_ok_of_any (by decide +kernel)
  obtain ⟨capped, cut, unconverged⟩ :
      ∃ solution, (Samples.twoPasses.solve Samples.ladder).result = .ok solution ∧
        solution.convergence ≠ .converged :=
    exists_ok_of_any (by decide +kernel)
  obtain ⟨-, recorded, -, -, ⟨last, isLast, stable, -⟩, -⟩ := run_reports_itself (.solved solved)
  obtain ⟨-, -, numbered, -, ⟨final, -, unstable, exhausted⟩, -⟩ :=
    run_reports_itself (.solved cut)
  obtain ⟨status, counts⟩ := exhausted (mt unstable.mpr unconverged)
  refine ⟨whole, capped, solved, recorded.trans counted, converged,
    ⟨last, isLast, stable.mp converged⟩, cut, ?_, status⟩
  rw [numbered, counts]
  rfl

end Machine
end ReactiveReach
