import ReactiveReach.Proofs.Flags
import ReactiveReach.Proofs.Growth

/-!
# No path is missed

A path follows transitions from the seed, and what the machine does on the way is the
contribution of one transition after the other, each with the exit zones of the value
that has arrived so far. The zones that a pass uses are those of the joined values,
which are more. So over a lawful machine each pass carries every path one transition
further, and solving covers all paths that are no longer than the passes it made; if
it comes to rest, it covers paths of any length.
-/

namespace ReactiveReach.Machine

variable {V P E : Type}

/-- The paths from the seed to a state that do not return to the seed. -/
inductive Path (machine : Machine V P E) : List (Transition P) → StateId → Prop where
  | seed {id : StateId} : id ∈ machine.seeds → Path machine [] id
  | step {path : List (Transition P)} {transition : Transition P} :
      Path machine path transition.source → transition ∈ machine.transitions →
      transition.target ∉ machine.seeds →
      Path machine (path ++ [transition]) transition.target

variable [BEq P]

/-- What a path makes of the initial value. -/
def carried (machine : Machine V P E) (path : List (Transition P)) : Except (Fault E) V := do
  path.foldlM machine.carry (← machine.assembly.initial.mapError .operation)

variable [BEq V] [LawfulBEq V] {machine : Machine V P E} {values : StateMap V}

omit [BEq V] [LawfulBEq V] in
theorem carried_append_singleton (path : List (Transition P)) (transition : Transition P) :
    machine.carried (path ++ [transition]) =
      machine.carried path >>= (machine.carry · transition) := by
  simp only [carried, List.foldlM_append, List.foldlM_cons, List.foldlM_nil, bind_pure,
    bind_assoc]

theorem Path.below_iterates {path : List (Transition P)} {id : StateId}
    (leads : machine.Path path id) (lawful : machine.Lawful) (anchored : machine.Anchored values)
    {value : V} (carried : machine.carried path = .ok value) {passes : Nat}
    (enough : path.length ≤ passes) {reached : StateMap V}
    (iterated : machine.iterates values passes = .ok reached) :
    ∃ joined, reached[id]? = some joined ∧ machine.assembly.below value joined = true := by
  induction leads generalizing value passes reached with
  | @seed id isSeed =>
      obtain ⟨seed, initial, found, given, pinned⟩ := (anchored.iterates iterated).pinned
      obtain rfl : initial = value := by
        simpa [Machine.carried, given, Except.mapError, Bind.bind, Except.bind] using carried
      rw [anchored.wellFormed.eq_of_mem_seeds isSeed found]
      exact ⟨initial, pinned, lawful.values.below_refl initial⟩
  | @step path transition leads member noSeed ih =>
      rw [carried_append_singleton, bind_eq_ok] at carried
      obtain ⟨arrived, carriedBefore, carries⟩ := carried
      rw [List.length_append, List.length_singleton] at enough
      obtain ⟨earlierPasses, rfl⟩ : ∃ earlierPasses, passes = earlierPasses + 1 :=
        ⟨passes - 1, by omega⟩
      obtain ⟨earlier, outcome, before, passed, rfl⟩ := iterates_succ_eq_ok.mp iterated
      obtain ⟨joined, found, below⟩ := ih carriedBefore (by omega) before
      have wellFormed := anchored.wellFormed
      have isPass := isPass_of_pass wellFormed passed
      obtain ⟨zones, refreshed, fed⟩ := isPass.feeds lawful wellFormed
      obtain ⟨other, after, gives, stored, belowAfter⟩ := fed transition member noSeed
      rw [given_eq_arrival wellFormed refreshed member, arrival_eq_ok_iff] at gives
      obtain ⟨_, foundThere, carriesMore⟩ := gives
      obtain rfl := Option.some.inj (found.symm.trans foundThere)
      have belowGiven :=
        (Within.refl lawful).carry_below lawful wellFormed wellFormed below carries carriesMore
      exact ⟨after, stored, lawful.values.below_trans belowGiven belowAfter⟩

/-- Solving misses no path: if it came to rest, or was allowed as many passes as the
path has transitions, its value at the end of the path covers what the path carries
there. -/
theorem path_covered (lawful : machine.Lawful) {solver : Solver} {solution : Solution V P}
    (solved : (solver.solve machine).result = .ok solution) {path : List (Transition P)}
    {id : StateId} (leads : machine.Path path id) {value : V}
    (carried : machine.carried path = .ok value)
    (far : solution.convergence = .converged ∨ path.length ≤ solver.cap) :
    ∃ reached, solution.semantics[id]? = some reached ∧
      machine.assembly.below value reached = true := by
  rw [result_solve, bind_eq_ok] at solved
  obtain ⟨values, started, ended⟩ := solved
  have anchored := anchored_of_startValues started
  rcases far with converged | short
  · obtain ⟨last, -, rfl, reaches, -⟩ := runFrom_eq_ok solver.cap_pos ended
    have settled := Progress.solution_isConverged.mp converged
    -- The run could go on for as many passes as the path has transitions.
    have onward := reaches.iterates_of_settled anchored.wellFormed settled
      (Nat.le_max_left last.passes path.length)
    exact leads.below_iterates lawful anchored carried (Nat.le_max_right _ _) onward
  · have atEnd := iterates_of_runFrom solver.cap_pos anchored.wellFormed ended
    exact leads.below_iterates lawful anchored carried short atEnd

theorem ladder_path_covered : ∃ rest two,
    (Solver.standard.solve Samples.ladder).result = .ok rest ∧
      Samples.ladder.Path (Samples.ladder.transitions ++ [Samples.climb]) "B" ∧
      Samples.ladder.carried (Samples.ladder.transitions ++ [Samples.climb]) = .ok 7 ∧
      (∃ reached, rest.semantics["B"]? = some reached ∧
        Samples.ladder.assembly.below 7 reached = true) ∧
      (Samples.twoPasses.solve Samples.ladder).result = .ok two ∧
      Samples.ladder.Path (Samples.ladder.transitions.take 2) "B" ∧
      Samples.ladder.carried (Samples.ladder.transitions.take 2) = .ok 3 ∧
      ∃ reached, two.semantics["B"]? = some reached ∧
        Samples.ladder.assembly.below 3 reached = true := by
  have atSeed : Samples.ladder.Path [] "Seed" := .seed (by decide)
  have onFirst : Samples.ladder.Path (Samples.ladder.transitions.take 1) "A" :=
    @Path.step _ _ _ _ [] (.triggered "Seed" "A") atSeed (by decide) (by decide)
  have onSecond : Samples.ladder.Path (Samples.ladder.transitions.take 2) "B" :=
    @Path.step _ _ _ _ _ Samples.climb onFirst (by decide) (by decide)
  have onThird : Samples.ladder.Path (Samples.ladder.transitions.take 3) "C" :=
    @Path.step _ _ _ _ _ ((Transition.reactive "B" "C").guarded (.holds 2)) onSecond
      (by decide) (by decide)
  have around : Samples.ladder.Path Samples.ladder.transitions "A" :=
    @Path.step _ _ _ _ _ (.triggered "C" "A") onThird (by decide) (by decide)
  have onSecondAgain : Samples.ladder.Path (Samples.ladder.transitions ++ [Samples.climb]) "B" :=
    @Path.step _ _ _ _ _ Samples.climb around (by decide) (by decide)
  obtain ⟨rest, restSolved, converged⟩ : ∃ rest,
      (Solver.standard.solve Samples.ladder).result = .ok rest ∧
        rest.convergence = .converged :=
    exists_ok_of_any (by decide +kernel)
  obtain ⟨two, twoSolved, -⟩ : ∃ two,
      (Samples.twoPasses.solve Samples.ladder).result = .ok two ∧ True :=
    exists_ok_of_any (by decide +kernel)
  have carriesFar :
      Samples.ladder.carried (Samples.ladder.transitions ++ [Samples.climb]) = .ok 7 := by
    decide +kernel
  have carriesNear : Samples.ladder.carried (Samples.ladder.transitions.take 2) = .ok 3 := by
    decide +kernel
  exact ⟨rest, two, restSolved, onSecondAgain, carriesFar,
    path_covered Samples.ladder_lawful restSolved onSecondAgain carriesFar (.inl converged),
    twoSolved, onSecond, carriesNear,
    path_covered Samples.ladder_lawful twoSolved onSecond carriesNear (.inr (by decide))⟩

end ReactiveReach.Machine
