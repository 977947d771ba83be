import ReactiveReach.Proofs.Leastness
import ReactiveReach.Proofs.Rest

/-!
# Going on from too little

A checkpoint need not hold values that a run over the machine would ever have. Where
they are nowhere above those with which the machine comes to rest, a run from them is
caught between two others: pass by pass it has at least what solving has, and never
more than the rest. So it is there when solving is, although some of its values may
have to shrink first.
-/

namespace ReactiveReach.Machine

variable {V P E : Type} [BEq V]

/-- Values for the states of a machine that are nowhere above other values, except
perhaps at the seed. -/
structure Underestimates (machine : Machine V P E) (values others : StateMap V) : Prop where
  covers : machine.Covers values
  below : ∀ state ∈ machine.recomputed, ∀ value, values[state.id]? = some value →
    ∃ other, others[state.id]? = some other ∧ machine.assembly.below value other = true

variable [LawfulBEq V] {machine small large : Machine V P E} {values others rest : StateMap V}

theorem Underestimates.allBelow (lawful : machine.Lawful) {checkpoint : Checkpoint V}
    (under : machine.Underestimates checkpoint.semantics others)
    (anchored : machine.Anchored others) (started : machine.resumeValues checkpoint = .ok values) :
    machine.assembly.AllBelow values others := by
  obtain ⟨seed, initial, wellFormed, found, -, -, given, rfl⟩ :=
    resumeValues_eq_ok_iff.mp started
  apply Assembly.AllBelow.insert (anchored.at_seed found given) (lawful.values.below_refl initial)
  intro id value noSeed stored
  obtain ⟨present, -⟩ := Std.ExtTreeMap.getElem?_eq_some_iff.mp stored
  obtain ⟨state, member, rfl⟩ := knows_iff.mp ((under.covers id).mp present)
  have recomputed : state ∈ machine.recomputed :=
    (wellFormed.mem_recomputed_iff member).mpr fun isSeed =>
      noSeed (wellFormed.eq_of_mem_seeds isSeed found)
  exact under.below state recomputed value stored

variable [BEq P]

/-- A run that stays below the rest of solving is there when solving is. -/
theorem Closed.iterates_eq_rest (closed : machine.Closed rest) (lawful : machine.Lawful)
    (started : machine.startValues = .ok values) (anchored : machine.Anchored others)
    (under : machine.assembly.AllBelow others rest) {passes : Nat} {reached : StateMap V}
    (iterated : machine.iterates values passes = .ok rest)
    (otherIterated : machine.iterates others passes = .ok reached) : reached = rest := by
  have within : machine.Within machine := .refl lawful
  have startBelow := within.start_below_anchored lawful started anchored
  have atLeast : machine.assembly.AllBelow rest reached :=
    within.iterates_mono lawful (anchored_of_startValues started) anchored startBelow iterated
      otherIterated
  have atMost : machine.assembly.AllBelow reached rest :=
    within.iterates_below_of_feeds lawful anchored.wellFormed anchored.wellFormed closed.covers
      closed.fed under otherIterated
  exact atMost.antisymm lawful.values.toSemilattice atLeast

theorem Within.underestimates (within : small.Within large) (lawful : large.Lawful)
    {solver other : Solver} {less solution : Solution V P}
    (solvedSmall : (solver.solve small).result = .ok less)
    (solved : (other.solve large).result = .ok solution)
    (converged : solution.convergence = .converged) :
    large.Underestimates less.semantics solution.semantics := by
  obtain ⟨values, started, ended⟩ := solve_eq_ok_iff.mp solved
  obtain ⟨last, -, rfl, reaches, -⟩ := runFrom_eq_ok other.cap_pos ended
  have anchored := anchored_of_startValues started
  have closed := reaches.closed lawful anchored (Progress.solution_isConverged.mp converged)
  obtain ⟨smallValues, smallStarted, iterated⟩ :=
    valuesAfter_eq_ok_iff.mp (valuesAfter_of_solve solvedSmall).2
  have below := closed.above_iterates within lawful anchored.wellFormed smallStarted iterated
  have covers := ((anchored_of_startValues smallStarted).iterates iterated).covers
  refine ⟨fun id => (covers id).trans ?_, fun state _ value found => below state.id value found⟩
  simp only [knows_iff, within.states_iff]

/-- Going on from too little leads to the values that solving comes to rest with, after
no more passes. -/
theorem resume_of_underestimates (lawful : machine.Lawful) {solver other : Solver}
    {solution : Solution V P} (solved : (solver.solve machine).result = .ok solution)
    (converged : solution.convergence = .converged) {checkpoint : Checkpoint V}
    (sameName : checkpoint.machine = machine.name)
    (under : machine.Underestimates checkpoint.semantics solution.semantics)
    (enough : solution.iterations ≤ other.cap)
    (noFailure : ∀ cause,
      (other.resume machine checkpoint).result ≠ .error (.failed (.operation cause))) :
    ∃ again, (other.resume machine checkpoint).result = .ok again ∧
      again.convergence = .converged ∧ again.iterations ≤ solution.iterations ∧
      again.semantics = solution.semantics ∧ again.zones = solution.zones := by
  obtain ⟨values, started, ended⟩ := solve_eq_ok_iff.mp solved
  obtain ⟨last, -, rfl, reaches, -⟩ := runFrom_eq_ok solver.cap_pos ended
  have anchored := anchored_of_startValues started
  have wellFormed := anchored.wellFormed
  have settled := Progress.solution_isConverged.mp converged
  obtain ⟨before, count, iterated⟩ := reaches.iterates_before_last wellFormed settled
  cases resumed : (other.resume machine checkpoint).result with
  | error failure =>
      obtain ⟨cause, rfl⟩ :=
        wellFormed.exists_cause_of_resume sameName under.covers resumed
      exact absurd resumed (noFailure cause)
  | ok again =>
      rw [result_resume, bind_eq_ok] at resumed
      obtain ⟨others, otherStarted, otherEnded⟩ := resumed
      have otherAnchored := anchored_of_resumeValues otherStarted
      have allowed : before + 1 ≤ other.cap := count ▸ enough
      have atEnd := iterates_of_runFrom other.cap_pos wellFormed otherEnded
      obtain ⟨reached, otherIterated⟩ :=
        exists_iterates_of_le atEnd (Nat.le_of_succ_le allowed)
      have below := under.allBelow lawful (reaches.anchored anchored) otherStarted
      obtain rfl : reached = last.semantics :=
        (reaches.closed lawful anchored settled).iterates_eq_rest lawful started otherAnchored below
          iterated otherIterated
      obtain ⟨comesToRest, atMost, sameValues, sameZones⟩ :=
        runFrom_of_rests wellFormed otherIterated (reaches.rests wellFormed settled) allowed
          otherEnded
      rw [count] at atMost
      exact ⟨again, rfl, comesToRest, atMost, sameValues, sameZones⟩

theorem oneWayLadder_within : Samples.oneWayLadder.Within Samples.ladder :=
  { Within.refl Samples.ladder_lawful with transitions_mem := by decide }

theorem ladder_resumes_from_less : ∃ less solution again,
    (Samples.twoPasses.solve Samples.oneWayLadder).result = .ok less ∧
      less.convergence = .capReached 2 ∧
      (Solver.standard.solve Samples.ladder).result = .ok solution ∧
      solution.iterations = 6 ∧
      (Solver.standard.resume Samples.ladder
        (less.checkpoint "less" Samples.earlyMorning "ladder")).result = .ok again ∧
      again.convergence = .converged ∧ again.iterations ≤ 6 ∧
      again.semantics = solution.semantics ∧ again.zones = solution.zones := by
  obtain ⟨less, solvedSmall, stopped, resumes⟩ : ∃ less,
      (Samples.twoPasses.solve Samples.oneWayLadder).result = .ok less ∧
        less.convergence = .capReached 2 ∧
        (Solver.standard.resume Samples.ladder
          (less.checkpoint "less" Samples.earlyMorning "ladder")).result.toOption.isSome = true :=
    exists_ok_of_any (by decide +kernel)
  obtain ⟨solution, solved, passes, converged⟩ : ∃ solution,
      (Solver.standard.solve Samples.ladder).result = .ok solution ∧
        solution.iterations = 6 ∧ solution.convergence = .converged :=
    exists_ok_of_any (by decide +kernel)
  let checkpoint := less.checkpoint "less" Samples.earlyMorning "ladder"
  have under : Samples.ladder.Underestimates checkpoint.semantics solution.semantics :=
    oneWayLadder_within.underestimates Samples.ladder_lawful solvedSmall solved converged
  have enough : solution.iterations ≤ Solver.standard.cap := by
    rw [passes]
    decide
  obtain ⟨reached, resumed⟩ := exists_ok_of_isSome resumes
  obtain ⟨again, sameRun, atRest, atMost, sameValues, sameZones⟩ :=
    resume_of_underestimates Samples.ladder_lawful solved converged rfl under enough
      (by simp [checkpoint, resumed])
  exact ⟨less, solution, again, solvedSmall, stopped, solved, passes, sameRun, atRest,
    passes ▸ atMost, sameValues, sameZones⟩

end ReactiveReach.Machine
