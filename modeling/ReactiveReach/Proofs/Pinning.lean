import ReactiveReach.Proofs.FixedPoint

/-!
# What every run keeps

A run may begin with bottom everywhere or with the values of a checkpoint, and it may
be cut off after any number of passes. However many it has made, it has a value and
exit zones for exactly the states of its machine. The seed has the initial value and no
exit zones, and no pass has listed it, whatever a checkpoint said about it and even if
transitions lead there.
-/

namespace ReactiveReach

variable {V P E : Type}

namespace Machine

variable {machine : Machine V P E} {values : StateMap V}

theorem mem_of_refreshZones (wellFormed : machine.WellFormed) {zones : ZoneMap P}
    (refreshed : machine.refreshZones values = .ok zones) (id : StateId) :
    id ∈ zones ↔ machine.knows id = true := by
  obtain ⟨stored, others⟩ := (refreshZones_eq_ok_iff wellFormed).mp refreshed
  constructor
  · intro present
    by_contra unknown
    rw [knows_iff] at unknown
    have absent := others id fun state member sameId => unknown ⟨state, member, sameId⟩
    rw [Std.ExtTreeMap.getElem?_eq_some_getElem present] at absent
    cases absent
  · intro known
    obtain ⟨state, member, rfl⟩ := knows_iff.mp known
    obtain ⟨exits, -, found⟩ := stored state member
    exact (Std.ExtTreeMap.getElem?_eq_some_iff.mp found).1

theorem getElem?_seed_of_refreshZones (wellFormed : machine.WellFormed) {zones : ZoneMap P}
    (refreshed : machine.refreshZones values = .ok zones) {seed : StateId}
    (isSeed : seed ∈ machine.seeds) : zones[seed]? = some [] := by
  obtain ⟨state, listed, rfl⟩ := List.mem_map.mp isSeed
  obtain ⟨member, isSeed⟩ := List.mem_filter.mp listed
  obtain ⟨exits, under, found⟩ :=
    ((refreshZones_eq_ok_iff wellFormed).mp refreshed).1 state member
  rw [zonesUnder, if_pos isSeed, Except.ok.injEq] at under
  rw [found, under]

theorem Anchored.exists_seed (anchored : machine.Anchored values) : ∃ seed initial,
    machine.seeds = [seed] ∧ machine.assembly.initial = .ok initial ∧
      values[seed]? = some initial := by
  obtain ⟨state, initial, found, given, pinned⟩ := anchored.pinned
  obtain ⟨seed, only⟩ := anchored.wellFormed.one_seed
  have isSeed : seed ∈ machine.seeds := by simp [only]
  rw [← anchored.wellFormed.eq_of_mem_seeds isSeed found] at pinned
  exact ⟨seed, initial, only, given, pinned⟩

theorem WellFormed.seed_not_mem (wellFormed : machine.WellFormed) {changed : List StateId}
    (inOrder : changed.Sublist (machine.recomputed.map (·.id))) {seed : StateId}
    (isSeed : seed ∈ machine.seeds) : seed ∉ changed := by
  intro listed
  obtain ⟨state, recomputed, rfl⟩ := List.mem_map.mp (inOrder.subset listed)
  exact (wellFormed.mem_recomputed_iff (List.mem_of_mem_filter recomputed)).mp recomputed isSeed

variable [BEq V] [BEq P]

/-- After its first pass a run has the exit zones of some values that it went through. -/
theorem Reaches.exists_refreshZones {progress : Progress V P}
    (reaches : machine.Reaches values progress) (wellFormed : machine.WellFormed)
    (moved : 0 < progress.passes) :
    ∃ before, machine.refreshZones before = .ok progress.zones := by
  cases reaches with
  | start => exact absurd moved (Nat.lt_irrefl 0)
  | @pass earlier outcome _ _ passed =>
      exact ⟨earlier.semantics, (isPass_of_pass wellFormed passed).refreshed⟩

/-- Whether it solves the machine or resumes it from any checkpoint, and after however
many passes, a run has a value and exit zones for exactly the states. The seed has the
initial value, no exit zones and a place in no record, and verifying never lists it. -/
theorem seed_stays_pinned (machine : Machine V P E) (solver : Solver) :
    (∀ solution, solver.Returns machine solution →
      (∀ id, id ∈ solution.semantics ↔ machine.knows id = true) ∧
      (∀ id, id ∈ solution.zones ↔ machine.knows id = true) ∧
      ∃ seed initial, machine.seeds = [seed] ∧ machine.assembly.initial = .ok initial ∧
        solution.semantics[seed]? = some initial ∧ solution.zones[seed]? = some [] ∧
        ∀ entry ∈ solution.history.toList, seed ∉ entry.changed) ∧
    ∀ values changed, (machine.verify values).result = .ok changed →
      ∀ seed ∈ machine.seeds, seed ∉ changed := by
  constructor
  · intro solution returned
    obtain ⟨values, anchored, ended⟩ := returned.exists_run
    -- There is a pass before every end, so the zones are no longer the empty map.
    obtain ⟨last, -, rfl, reaches, moved, -⟩ := runFrom_eq_ok solver.cap_pos ended
    have wellFormed := anchored.wellFormed
    have atEnd : machine.Anchored last.semantics := reaches.anchored anchored
    obtain ⟨before, refreshed⟩ := reaches.exists_refreshZones wellFormed moved
    obtain ⟨seed, initial, only, given, pinned⟩ := atEnd.exists_seed
    have isSeed : seed ∈ machine.seeds := by simp [only]
    refine ⟨atEnd.covers, mem_of_refreshZones wellFormed refreshed, seed, initial, only, given,
      pinned, getElem?_seed_of_refreshZones wellFormed refreshed isSeed, ?_⟩
    intro entry listed
    exact wellFormed.seed_not_mem (reaches.sublist_of_mem_history wellFormed listed) isSeed
  · intro values changed verified seed isSeed
    simp only [verify, Logged.result_bind, Logged.result_ofExcept, Logged.result_mapError,
      Logged.result_pure, bind_eq_ok, mapError_eq_ok, Except.ok.injEq] at verified
    obtain ⟨state, accepted, -, -, outcome, passed, rfl⟩ := verified
    have wellFormed := (checkedSeed_eq_ok_iff.mp accepted).1
    exact wellFormed.seed_not_mem (isPass_of_pass wellFormed passed).in_order isSeed

theorem straightLadder_seed_is_pinned : ∃ solution changed,
    (Samples.twoPasses.resume Samples.straightLadder Samples.astray).result = .ok solution ∧
      Samples.astray.semantics["Seed"]? = some 6 ∧ solution.convergence = .capReached 2 ∧
      solution.semantics["Seed"]? = some 1 ∧ solution.zones["Seed"]? = some [] ∧
      "E" ∉ solution.zones ∧
      (Samples.straightLadder.verify Samples.astray.semantics).result = .ok changed ∧
      changed.length = 3 ∧ "Seed" ∉ changed := by
  have seeds : Samples.straightLadder.seeds = ["Seed"] := by decide
  obtain ⟨solution, resumed, capped⟩ : ∃ solution,
      (Samples.twoPasses.resume Samples.straightLadder Samples.astray).result = .ok solution ∧
        solution.convergence = .capReached 2 :=
    exists_ok_of_any (by decide +kernel)
  obtain ⟨changed, verified, several⟩ : ∃ changed,
      (Samples.straightLadder.verify Samples.astray.semantics).result = .ok changed ∧
        changed.length = 3 :=
    exists_ok_of_any (by decide +kernel)
  obtain ⟨pinned, unlisted⟩ := seed_stays_pinned Samples.straightLadder Samples.twoPasses
  obtain ⟨-, zoned, seed, initial, only, given, value, exits, -⟩ :=
    pinned solution (.resumed Samples.astray resumed)
  obtain rfl : "Seed" = seed := by simpa [seeds] using only
  obtain rfl : 1 = initial := Except.ok.inj given
  have unknown : "E" ∉ solution.zones := by
    rw [zoned]
    decide
  exact ⟨solution, changed, resumed, by decide +kernel, capped, value, exits, unknown, verified,
    several, unlisted _ changed verified "Seed" (by simp [seeds])⟩

end Machine
end ReactiveReach
