import ReactiveReach.Proofs.Flags
import ReactiveReach.Proofs.Growth
import ReactiveReach.Proofs.Lookups

/-!
# Solving finds the least closed values

Values are closed when they hold the initial value at the seed and no transition
gives a state more than it has. Over a lawful machine solving approaches the closed
values from below: however early it is stopped, what it has found is below all of
them, and when it comes to rest its values are closed, hence the least closed ones.
-/

namespace ReactiveReach.Machine

variable {V P E : Type} [BEq V] [BEq P]

/-- Values of all states that no transition adds to. -/
structure Closed (machine : Machine V P E) (values : StateMap V) : Prop where
  covers : machine.Covers values
  holds_initial : ∃ seed initial reached, machine.states.find? (·.isSeed) = some seed ∧
    machine.assembly.initial = .ok initial ∧ values[seed.id]? = some reached ∧
    machine.assembly.below initial reached = true
  fed : machine.Feeds values values

variable [LawfulBEq V] {machine small large : Machine V P E} {values : StateMap V}

theorem Closed.above_iterates {upper : StateMap V} (closed : large.Closed upper)
    (within : small.Within large) (lawful : large.Lawful) (wellFormed : large.WellFormed)
    (started : small.startValues = .ok values) {passes : Nat} {reached : StateMap V}
    (iterated : small.iterates values passes = .ok reached) :
    large.assembly.AllBelow reached upper := by
  have ordered : large.assembly.AllBelow values upper := by
    apply within.start_below lawful started closed.covers
    intro seed initial found given
    obtain ⟨other, otherInitial, atSeed, otherFound, otherGiven, stored, below⟩ :=
      closed.holds_initial
    obtain ⟨sameSeed, belowInitial⟩ :=
      within.initial_below_at_seed wellFormed found given otherFound otherGiven
    exact ⟨atSeed, sameSeed ▸ stored, lawful.values.below_trans belowInitial below⟩
  exact within.iterates_below_of_feeds lawful (anchored_of_startValues started).wellFormed
    wellFormed closed.covers closed.fed ordered iterated

theorem Reaches.closed {progress : Progress V P} (reaches : machine.Reaches values progress)
    (lawful : machine.Lawful) (anchored : machine.Anchored values)
    (settled : progress.settled = true) : machine.Closed progress.semantics := by
  have wellFormed := anchored.wellFormed
  have atEnd := reaches.anchored anchored
  obtain ⟨outcome, passed, -, same, -⟩ := reaches.exists_lastPass wellFormed settled
  obtain ⟨seed, initial, found, given, pinned⟩ := atEnd.pinned
  refine ⟨atEnd.covers, ?_, ?_⟩
  · exact ⟨seed, initial, initial, found, given, pinned, lawful.values.below_refl initial⟩
  · have feeds := (isPass_of_pass wellFormed passed).feeds lawful wellFormed
    rwa [same] at feeds

theorem Lawful.grows_of_changed (lawful : machine.Lawful)
    (started : machine.startValues = .ok values) {passes : Nat} {earlier : StateMap V}
    (reached : machine.iterates values passes = .ok earlier) {outcome : PassOutcome V P}
    (passed : (machine.pass machine.incoming earlier).result = .ok outcome) {id : StateId}
    (changed : id ∈ outcome.changed) :
    ∃ before after, earlier[id]? = some before ∧ outcome.semantics[id]? = some after ∧
      machine.assembly.below before after = true ∧ before ≠ after := by
  have wellFormed := (anchored_of_startValues started).wellFormed
  have isPass := isPass_of_pass wellFormed passed
  have grows := lawful.iterates_grow started reached
    (iterates_succ_eq_ok.mpr ⟨earlier, outcome, reached, passed, rfl⟩)
  obtain ⟨state, member, rfl⟩ := List.mem_map.mp (isPass.in_order.subset changed)
  obtain ⟨before, after, found, -, stored, differs⟩ := isPass.exists_recomputed member
  exact ⟨before, after, found, stored, grows.below found stored,
    (differs.mp changed).symm⟩

/-- Solving a lawful machine approaches the least closed values. Unless an operation
fails there is an outcome; one more pass only adds to it, every state that a pass
changed grew in it, the outcome is below all closed values, and if the run came to
rest the outcome is closed. -/
theorem solve_least (lawful : machine.Lawful) (wellFormed : machine.WellFormed)
    (solver : Solver)
    (noFailure : ∀ cause, (solver.solve machine).result ≠ .error (.failed (.operation cause))) :
    ∃ solution, (solver.solve machine).result = .ok solution ∧
      (∀ next : Solver, next.cap = solver.cap + 1 →
        (∀ cause, (next.solve machine).result ≠ .error (.failed (.operation cause))) →
        ∃ later, (next.solve machine).result = .ok later ∧
          machine.assembly.AllBelow solution.semantics later.semantics) ∧
      (∀ entry ∈ solution.history.toList, ∃ earlier later,
        machine.valuesAfter (entry.iteration - 1) = .ok earlier ∧
          machine.valuesAfter entry.iteration = .ok later ∧
          ∀ id ∈ entry.changed, ∃ before after,
            earlier[id]? = some before ∧ later[id]? = some after ∧
              machine.assembly.below before after = true ∧ before ≠ after) ∧
      (∀ closed, machine.Closed closed →
        machine.assembly.AllBelow solution.semantics closed) ∧
      (solution.convergence = .converged → machine.Closed solution.semantics) := by
  obtain ⟨solution, solved⟩ := wellFormed.exists_solution noFailure
  have ended := solved
  rw [result_solve, bind_eq_ok] at ended
  obtain ⟨values, started, ended⟩ := ended
  have anchored := anchored_of_startValues started
  have atEnd := iterates_of_runFrom solver.cap_pos wellFormed ended
  refine ⟨solution, solved, ?_, ?_, fun upper closed => ?_, fun converged => ?_⟩
  · intro next oneMore nextSucceeds
    obtain ⟨later, nextSolved⟩ := wellFormed.exists_solution nextSucceeds
    refine ⟨later, nextSolved, ?_⟩
    rw [result_solve, started] at nextSolved
    have later := iterates_of_runFrom next.cap_pos wellFormed nextSolved
    rw [oneMore] at later
    exact lawful.iterates_grow started atEnd later
  · intro entry member
    obtain ⟨last, -, rfl, reaches, -⟩ := runFrom_eq_ok solver.cap_pos ended
    obtain ⟨passes, earlier, outcome, rfl, -, reached, passed⟩ :=
      reaches.exists_of_mem_history member
    have reachedNext := iterates_succ_eq_ok.mpr ⟨earlier, outcome, reached, passed, rfl⟩
    refine ⟨earlier, outcome.semantics, valuesAfter_eq_ok_iff.mpr ⟨values, started, reached⟩,
      valuesAfter_eq_ok_iff.mpr ⟨values, started, reachedNext⟩, fun id changed => ?_⟩
    exact lawful.grows_of_changed started reached passed changed
  · exact closed.above_iterates (.refl lawful) lawful wellFormed started atEnd
  · obtain ⟨last, -, rfl, reaches, -⟩ := runFrom_eq_ok solver.cap_pos ended
    exact reaches.closed lawful anchored (Progress.solution_isConverged.mp converged)

theorem ladder_least : ∃ two three rest,
    (Samples.twoPasses.solve Samples.ladder).result = .ok two ∧
      (Samples.threePasses.solve Samples.ladder).result = .ok three ∧
      (Solver.standard.solve Samples.ladder).result = .ok rest ∧
      Samples.ladder.assembly.AllBelow two.semantics three.semantics ∧
      Samples.ladder.assembly.AllBelow three.semantics rest.semantics ∧
      Samples.ladder.Closed rest.semantics ∧
      ∀ closed, Samples.ladder.Closed closed →
        Samples.ladder.assembly.AllBelow rest.semantics closed := by
  have wellFormed : Samples.ladder.WellFormed := violations_eq_nil_iff.mp (by decide)
  obtain ⟨two, twoSolved, -⟩ : ∃ two,
      (Samples.twoPasses.solve Samples.ladder).result = .ok two ∧ True :=
    exists_ok_of_any (by decide +kernel)
  obtain ⟨three, threeSolved, -⟩ : ∃ three,
      (Samples.threePasses.solve Samples.ladder).result = .ok three ∧ True :=
    exists_ok_of_any (by decide +kernel)
  obtain ⟨rest, restSolved, converged⟩ : ∃ rest,
      (Solver.standard.solve Samples.ladder).result = .ok rest ∧
        rest.convergence = .converged :=
    exists_ok_of_any (by decide +kernel)
  obtain ⟨_, sameTwo, grows, -⟩ := solve_least Samples.ladder_lawful wellFormed
    Samples.twoPasses (by simp [twoSolved])
  obtain ⟨_, sameThree, -, -, threeBelow, -⟩ := solve_least Samples.ladder_lawful wellFormed
    Samples.threePasses (by simp [threeSolved])
  obtain ⟨_, sameRest, -, -, restBelow, closed⟩ := solve_least Samples.ladder_lawful wellFormed
    Solver.standard (by simp [restSolved])
  obtain rfl := Except.ok.inj (twoSolved.symm.trans sameTwo)
  obtain rfl := Except.ok.inj (threeSolved.symm.trans sameThree)
  obtain rfl := Except.ok.inj (restSolved.symm.trans sameRest)
  obtain ⟨_, sameLater, below⟩ := grows Samples.threePasses rfl (by simp [threeSolved])
  obtain rfl := Except.ok.inj (threeSolved.symm.trans sameLater)
  exact ⟨two, three, rest, twoSolved, threeSolved, restSolved, below,
    threeBelow _ (closed converged), closed converged, restBelow⟩

end ReactiveReach.Machine
