import ReactiveReach.Proofs.Flags
import ReactiveReach.Proofs.Growth

/-!
# Larger machines reach more

A machine may get more transitions, a greater initial value, guards that let more
pass and more exit zones. Pass by pass every state then has at least what it had in
the smaller machine. A run that has come to rest could go on without changing
anything, so the comparison does not depend on how many passes each run made, only
on the cap that both were given.
-/

namespace ReactiveReach.Machine

variable {V P E : Type} [BEq V] [LawfulBEq V] [BEq P] {small large : Machine V P E}

theorem Within.iterates_below (within : small.Within large) (lawful : large.Lawful)
    {values others : StateMap V} (started : small.startValues = .ok values)
    (otherStarted : large.startValues = .ok others) {passes : Nat}
    {reached otherReached : StateMap V} (iterated : small.iterates values passes = .ok reached)
    (otherIterated : large.iterates others passes = .ok otherReached) :
    large.assembly.AllBelow reached otherReached := by
  have otherAnchored := anchored_of_startValues otherStarted
  have ordered := within.start_below_anchored lawful started otherAnchored
  exact within.iterates_mono lawful (anchored_of_startValues started) otherAnchored ordered
    iterated otherIterated

/-- A larger machine has, at every state, at least what a smaller one has after a run
under the same cap, whether or not either run came to rest. -/
theorem solve_below_of_within (within : small.Within large) (lawful : large.Lawful)
    {solver : Solver} {solution larger : Solution V P}
    (solved : (solver.solve small).result = .ok solution)
    (largerSolved : (solver.solve large).result = .ok larger) :
    large.assembly.AllBelow solution.semantics larger.semantics := by
  obtain ⟨values, started, ended⟩ := valuesAfter_eq_ok_iff.mp (valuesAfter_of_solve solved).2
  obtain ⟨others, otherStarted, otherEnded⟩ :=
    valuesAfter_eq_ok_iff.mp (valuesAfter_of_solve largerSolved).2
  exact within.iterates_below lawful started otherStarted ended otherEnded

theorem ladder_within_wider : Samples.ladder.Within Samples.widerLadder where
  assembly := {
    bottom_eq := rfl
    meet_eq := rfl
    join_eq := rfl
    fire_eq := rfl
    deliver_eq := rfl
    initial_below := by
      rintro _ _ ⟨⟩ ⟨⟩
      decide
    top_below := by decide
    meaning_below := by
      rintro predicate _ _ ⟨⟩ ⟨⟩
      exact Samples.widerLadder_lawful.values.below_refl predicate }
  states_iff _ := Iff.rfl
  transitions_mem := by decide
  exits_mem {state flags zones zone} exiting member := by
    refine ⟨zones ++ if flags &&& 0b1000 != 0 then [⟨2, "lift", "up1"⟩] else [], ?_, ?_⟩
    · change Samples.liftZones state flags = .ok zones at exiting
      simp only [Samples.widerLadder, exiting, Samples.zoneWhen]
      rfl
    · exact List.mem_append_left _ member

/-- The wider ladder is ahead of the ladder after two passes, when neither has come to
rest, and stays ahead when both have. -/
theorem ladder_below_wider : ∃ two widerTwo rest widerRest,
    (Samples.twoPasses.solve Samples.ladder).result = .ok two ∧
      (Samples.twoPasses.solve Samples.widerLadder).result = .ok widerTwo ∧
      two.convergence = .capReached 2 ∧ widerTwo.convergence = .capReached 2 ∧
      (Solver.standard.solve Samples.ladder).result = .ok rest ∧
      (Solver.standard.solve Samples.widerLadder).result = .ok widerRest ∧
      Samples.widerLadder.assembly.AllBelow two.semantics widerTwo.semantics ∧
      Samples.widerLadder.assembly.AllBelow rest.semantics widerRest.semantics := by
  obtain ⟨two, twoSolved, twoStopped⟩ : ∃ two,
      (Samples.twoPasses.solve Samples.ladder).result = .ok two ∧
        two.convergence = .capReached 2 :=
    exists_ok_of_any (by decide +kernel)
  obtain ⟨widerTwo, widerTwoSolved, widerTwoStopped⟩ : ∃ widerTwo,
      (Samples.twoPasses.solve Samples.widerLadder).result = .ok widerTwo ∧
        widerTwo.convergence = .capReached 2 :=
    exists_ok_of_any (by decide +kernel)
  obtain ⟨rest, restSolved⟩ : ∃ rest, (Solver.standard.solve Samples.ladder).result = .ok rest :=
    exists_ok_of_isSome (by decide +kernel)
  obtain ⟨widerRest, widerRestSolved⟩ : ∃ widerRest,
      (Solver.standard.solve Samples.widerLadder).result = .ok widerRest :=
    exists_ok_of_isSome (by decide +kernel)
  have early := solve_below_of_within ladder_within_wider Samples.widerLadder_lawful twoSolved
    widerTwoSolved
  have late := solve_below_of_within ladder_within_wider Samples.widerLadder_lawful restSolved
    widerRestSolved
  exact ⟨two, widerTwo, rest, widerRest, twoSolved, widerTwoSolved, twoStopped,
    widerTwoStopped, restSolved, widerRestSolved, early, late⟩

end ReactiveReach.Machine
