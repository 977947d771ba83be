import ReactiveReach.Proofs.Flags
import ReactiveReach.Proofs.Locality
import ReactiveReach.Proofs.Rest

/-!
# What cannot influence a state

Two machines may share some states together with everything that leads into them, and
differ in all the rest. Pass by pass the shared states then have the same values. The
rest may keep one of the runs going for longer, but never changes these states or
their exit zones: a run that stops early would have found them unchanged by all
passes up to the cap.
-/

namespace ReactiveReach.Machine

variable {V P E : Type} {first second : Machine V P E} {cone : State → Prop}

/-- Both machines have these states. Into those among them that are not the seed, the
same transitions lead in the same order, and they begin at these states too. -/
structure SharesCone (first second : Machine V P E) (cone : State → Prop) : Prop where
  assembly : first.assembly = second.assembly
  exits : first.exits = second.exits
  mem_states : ∀ state, cone state → state ∈ first.states ∧ state ∈ second.states
  incoming : ∀ state, cone state → state.isSeed = false →
    first.transitions.filter (·.targets state.id) =
      second.transitions.filter (·.targets state.id)
  sources : ∀ state, cone state → state.isSeed = false →
    ∀ transition ∈ first.transitions, transition.target = state.id →
      ∃ source, cone source ∧ source.id = transition.source

namespace SharesCone

variable {values others : StateMap V} {state : State}

theorem agree_at_start (shares : first.SharesCone second cone)
    (started : first.startValues = .ok values) (otherStarted : second.startValues = .ok others)
    (inCone : cone state) : AgreeAt values others state.id := by
  obtain ⟨member, otherMember⟩ := shares.mem_states state inCone
  cases isSeed : state.isSeed with
  | true =>
      exact (anchored_of_startValues started).agree_at_seed shares.assembly
        (anchored_of_startValues otherStarted) member otherMember isSeed
  | false =>
      have bottom := getElem?_startValues started (mem_recomputed member isSeed)
      have otherBottom := getElem?_startValues otherStarted (mem_recomputed otherMember isSeed)
      exact ⟨_, bottom, shares.assembly ▸ otherBottom⟩

variable [BEq V] [LawfulBEq V] [BEq P]

/-- No pass brings anything into the shared states that only one machine has. -/
theorem agree_after_pass (shares : first.SharesCone second cone)
    (anchored : first.Anchored values) (otherAnchored : second.Anchored others)
    (agree : ∀ state, cone state → AgreeAt values others state.id)
    {outcome otherOutcome : PassOutcome V P}
    (passed : (first.pass first.incoming values).result = .ok outcome)
    (otherPassed : (second.pass second.incoming others).result = .ok otherOutcome)
    (inCone : cone state) : AgreeAt outcome.semantics otherOutcome.semantics state.id := by
  obtain ⟨member, otherMember⟩ := shares.mem_states state inCone
  cases isSeed : state.isSeed with
  | true =>
      exact (anchored.pass passed).agree_at_seed shares.assembly (otherAnchored.pass otherPassed)
        member otherMember isSeed
  | false =>
      apply (isPass_of_pass anchored.wellFormed passed).agree shares.assembly shares.exits
        anchored.wellFormed otherAnchored.wellFormed
        (isPass_of_pass otherAnchored.wellFormed otherPassed) (mem_recomputed member isSeed)
        (mem_recomputed otherMember isSeed) (shares.incoming state inCone isSeed)
      intro transition listed target
      obtain ⟨source, sourceInCone, sourceId⟩ :=
        shares.sources state inCone isSeed transition listed target
      obtain ⟨sourceMem, otherSourceMem⟩ := shares.mem_states source sourceInCone
      exact ⟨source, sourceMem, otherSourceMem, sourceId, agree source sourceInCone⟩

theorem agree_after_passes (shares : first.SharesCone second cone)
    (started : first.startValues = .ok values) (otherStarted : second.startValues = .ok others)
    {passes : Nat} {reached otherReached : StateMap V}
    (iterated : first.iterates values passes = .ok reached)
    (otherIterated : second.iterates others passes = .ok otherReached) :
    ∀ state, cone state → AgreeAt reached otherReached state.id := by
  induction passes generalizing reached otherReached with
  | zero =>
      obtain rfl : values = reached := Except.ok.inj iterated
      obtain rfl : others = otherReached := Except.ok.inj otherIterated
      exact fun state => shares.agree_at_start started otherStarted
  | succ passes ih =>
      obtain ⟨earlier, outcome, before, passed, rfl⟩ := iterates_succ_eq_ok.mp iterated
      obtain ⟨otherEarlier, otherOutcome, otherBefore, otherPassed, rfl⟩ :=
        iterates_succ_eq_ok.mp otherIterated
      intro state
      exact shares.agree_after_pass ((anchored_of_startValues started).iterates before)
        ((anchored_of_startValues otherStarted).iterates otherBefore) (ih before otherBefore)
        passed otherPassed

end SharesCone

/-- Under a common cap, two machines find the same values and exit zones for the states
that they share, although their runs may end after different numbers of passes. -/
theorem solve_agrees_on_cone [BEq V] [LawfulBEq V] [BEq P]
    (shares : first.SharesCone second cone) {solver : Solver}
    {solution other : Solution V P} (solved : (solver.solve first).result = .ok solution)
    (otherSolved : (solver.solve second).result = .ok other) {state : State}
    (inCone : cone state) :
    ∃ value exits,
      solution.semantics[state.id]? = some value ∧ other.semantics[state.id]? = some value ∧
        solution.zones[state.id]? = some exits ∧ other.zones[state.id]? = some exits := by
  obtain ⟨values, started, ended⟩ := solve_eq_ok_iff.mp solved
  obtain ⟨others, otherStarted, otherEnded⟩ := solve_eq_ok_iff.mp otherSolved
  have wellFormed := (anchored_of_startValues started).wellFormed
  have otherWellFormed := (anchored_of_startValues otherStarted).wellFormed
  obtain ⟨value, found, otherFound⟩ := shares.agree_after_passes started otherStarted
    (iterates_of_runFrom solver.cap_pos wellFormed ended)
    (iterates_of_runFrom solver.cap_pos otherWellFormed otherEnded) state inCone
  obtain ⟨last, atCap⟩ := Nat.exists_eq_succ_of_ne_zero (Nat.pos_iff_ne_zero.mp solver.cap_pos)
  rw [atCap] at ended otherEnded
  obtain ⟨before, outcome, iterated, isPass, -, zones⟩ := exists_pass_of_runFrom wellFormed ended
  obtain ⟨otherBefore, otherOutcome, otherIterated, otherPass, -, otherZones⟩ :=
    exists_pass_of_runFrom otherWellFormed otherEnded
  obtain ⟨earlier, foundBefore, otherFoundBefore⟩ :=
    shares.agree_after_passes started otherStarted iterated otherIterated state inCone
  obtain ⟨member, otherMember⟩ := shares.mem_states state inCone
  obtain ⟨exits, under, stored⟩ :=
    ((refreshZones_eq_ok_iff wellFormed).mp isPass.refreshed).1 state member
  obtain ⟨otherExits, otherUnder, otherStored⟩ :=
    ((refreshZones_eq_ok_iff otherWellFormed).mp otherPass.refreshed).1 state otherMember
  have sameUnder := zonesUnder_congr shares.exits (foundBefore.trans otherFoundBefore.symm)
  rw [under, otherUnder, Except.ok.injEq] at sameUnder
  rw [zones] at stored
  rw [otherZones] at otherStored
  exact ⟨value, exits, found, otherFound, stored, sameUnder ▸ otherStored⟩

theorem ladder_sharesCone :
    Samples.ladder.SharesCone Samples.ladderWithLandings (· ∈ Samples.ladder.states) where
  assembly := rfl
  exits := rfl
  mem_states := by decide
  incoming := by decide
  sources := by decide

theorem ladder_agrees_with_landings : ∃ solution other,
    (Solver.standard.solve Samples.ladder).result = .ok solution ∧
      (Solver.standard.solve Samples.ladderWithLandings).result = .ok other ∧
      solution.iterations = 6 ∧ other.iterations = 8 ∧
      ∀ state ∈ Samples.ladder.states,
        solution.semantics[state.id]? = other.semantics[state.id]? ∧
          solution.zones[state.id]? = other.zones[state.id]? := by
  obtain ⟨solution, solved, passes⟩ : ∃ solution,
      (Solver.standard.solve Samples.ladder).result = .ok solution ∧ solution.iterations = 6 :=
    exists_ok_of_any (by decide +kernel)
  obtain ⟨other, otherSolved, otherPasses⟩ : ∃ other,
      (Solver.standard.solve Samples.ladderWithLandings).result = .ok other ∧
        other.iterations = 8 :=
    exists_ok_of_any (by decide +kernel)
  refine ⟨solution, other, solved, otherSolved, passes, otherPasses, ?_⟩
  intro state member
  obtain ⟨value, exits, found, otherFound, stored, otherStored⟩ :=
    solve_agrees_on_cone ladder_sharesCone solved otherSolved member
  exact ⟨found.trans otherFound.symm, stored.trans otherStored.symm⟩

end ReactiveReach.Machine
