import ReactiveReach.Proofs.Run

/-!
# Values at rest

Values are at rest when a pass leaves them as they are. A run that would be at rest
after some number of passes settles with these values, at the latest with the pass
that finds nothing to change, and it does so under every cap that allows this pass.
-/

namespace ReactiveReach.Machine

variable {V P E : Type} [BEq V] [BEq P]

/-- A pass from these values finds these exit zones and changes nothing. -/
def Rests (machine : Machine V P E) (values : StateMap V) (zones : ZoneMap P) : Prop :=
  (machine.pass machine.incoming values).result = .ok ⟨values, zones, []⟩

variable {machine : Machine V P E} {values rest : StateMap V} {zones : ZoneMap P} {passes : Nat}

theorem rests_of_unchanged (wellFormed : machine.WellFormed) {outcome : PassOutcome V P}
    (passed : (machine.pass machine.incoming values).result = .ok outcome)
    (unchanged : outcome.changed = []) : machine.Rests values outcome.zones := by
  have same := (isPass_of_pass wellFormed passed).semantics_eq unchanged
  obtain ⟨semantics, zones, changed⟩ := outcome
  subst same unchanged
  exact passed

namespace Reaches

variable {progress : Progress V P}

theorem rests (reaches : machine.Reaches values progress) (wellFormed : machine.WellFormed)
    (settled : progress.settled = true) : machine.Rests progress.semantics progress.zones := by
  obtain ⟨outcome, passed, unchanged, -, zones⟩ := reaches.exists_lastPass wellFormed settled
  rw [← zones]
  exact rests_of_unchanged wellFormed passed unchanged

theorem iterates_before_last (reaches : machine.Reaches values progress)
    (wellFormed : machine.WellFormed) (settled : progress.settled = true) :
    ∃ before, before + 1 = progress.passes ∧
      machine.iterates values before = .ok progress.semantics := by
  cases reaches with
  | start => simp [Progress.start] at settled
  | @pass earlier outcome reached _ passed =>
      have unchanged : outcome.changed = [] := by simpa [Progress.next] using settled
      have same := (isPass_of_pass wellFormed passed).semantics_eq unchanged
      refine ⟨earlier.passes, rfl, ?_⟩
      rw [Progress.next, same]
      exact reached.iterates_eq

theorem passes_le_of_rests (reaches : machine.Reaches values progress)
    (iterated : machine.iterates values passes = .ok rest) (rests : machine.Rests rest zones) :
    progress.passes ≤ passes + 1 ∧ (progress.settled = false → progress.passes ≤ passes) := by
  induction reaches with
  | start => exact ⟨Nat.zero_le _, fun _ => Nat.zero_le _⟩
  | @pass earlier outcome reached unsettled passed ih =>
      have before : earlier.passes ≤ passes := ih.2 unsettled
      refine ⟨Nat.succ_le_succ before, fun stillUnsettled => Nat.lt_of_le_of_ne before ?_⟩
      intro atRest
      have there := reached.iterates_eq
      rw [atRest, iterated, Except.ok.injEq] at there
      rw [← there, rests, Except.ok.injEq] at passed
      simp [Progress.next, ← passed] at stillUnsettled

end Reaches

/-- A run that would be at rest after some passes settles so, whatever else its cap
allows. -/
theorem runFrom_of_rests (wellFormed : machine.WellFormed)
    (iterated : machine.iterates values passes = .ok rest) (rests : machine.Rests rest zones)
    {cap : Nat} (enough : passes + 1 ≤ cap) {solution : Solution V P}
    (ended : machine.runFrom cap values = .ok solution) :
    solution.convergence = .converged ∧ solution.iterations ≤ passes + 1 ∧
      solution.semantics = rest ∧ solution.zones = zones := by
  obtain ⟨last, -, rfl, reaches, -, -, exactly⟩ :=
    runFrom_eq_ok (Nat.lt_of_lt_of_le (Nat.succ_pos _) enough) ended
  obtain ⟨atMost, before⟩ := reaches.passes_le_of_rests iterated rests
  have settled : last.settled = true := by
    by_contra unsettled
    rw [Bool.not_eq_true] at unsettled
    have usedUp := exactly unsettled
    have notYet := before unsettled
    omega
  have onward := reaches.iterates_of_settled wellFormed settled atMost
  rw [iterates_of_unchanged iterated rests rfl (Nat.le_succ _), Except.ok.injEq] at onward
  have sameRest := reaches.rests wellFormed settled
  rw [← onward, Rests, rests, Except.ok.injEq, PassOutcome.mk.injEq] at sameRest
  exact ⟨Progress.solution_isConverged.mpr settled, atMost, onward.symm, sameRest.2.1.symm⟩

theorem exists_pass_of_runFrom (wellFormed : machine.WellFormed) {cap : Nat}
    {solution : Solution V P} (ended : machine.runFrom (cap + 1) values = .ok solution) :
    ∃ before outcome, machine.iterates values cap = .ok before ∧
      machine.IsPass before outcome ∧ outcome.semantics = solution.semantics ∧
      outcome.zones = solution.zones := by
  obtain ⟨last, -, rfl, reaches, moved, atMost, exactly⟩ := runFrom_eq_ok (Nat.succ_pos _) ended
  rcases Nat.lt_or_eq_of_le atMost with early | usedUp
  · have settled : last.settled = true := by
      by_contra unsettled
      rw [Bool.not_eq_true] at unsettled
      have := exactly unsettled
      omega
    have rests := reaches.rests wellFormed settled
    exact ⟨_, _, reaches.iterates_of_settled wellFormed settled (Nat.le_of_lt_succ early),
      isPass_of_pass wellFormed rests, rfl, rfl⟩
  · cases reaches with
    | start => exact absurd moved (Nat.lt_irrefl 0)
    | @pass earlier outcome reached _ passed =>
        have before : earlier.passes = cap := Nat.succ.inj usedUp
        exact ⟨_, outcome, before ▸ reached.iterates_eq, isPass_of_pass wellFormed passed, rfl, rfl⟩

end ReactiveReach.Machine
