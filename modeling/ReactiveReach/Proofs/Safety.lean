import ReactiveReach.Proofs.Lookups
import ReactiveReach.Samples.Ladder

/-!
# Checked once, read without asking

Validation and the check of coverage come before any pass, and a pass then reads
values, zones and source states without asking whether they are there. Whatever
machine, checkpoint or values an analysis is given, it never reads an entry that is
missing: either a check refuses them, or every entry exists before the first pass
and after each of them.
-/

namespace ReactiveReach

variable {V P E α β : Type}

/-- Analyses that never read a missing entry. -/
def NeverMisses (computation : Except (SolveError E) α) : Prop :=
  ∀ state, computation ≠ .error (.failed (.absent state))

namespace NeverMisses

theorem ok (value : α) : NeverMisses (.ok value : Except (SolveError E) α) := by
  intro state failed
  simp at failed

theorem bind {first : Except (SolveError E) α} {next : α → Except (SolveError E) β}
    (here : NeverMisses first)
    (there : ∀ value, first = .ok value → NeverMisses (next value)) :
    NeverMisses (first >>= next) := by
  intro state failed
  cases first with
  | error failure => exact here state (by simpa [Bind.bind, Except.bind] using failed)
  | ok value => exact there value rfl state failed

theorem map {computation : Except (SolveError E) α} {view : α → β}
    (never : NeverMisses computation) : NeverMisses (view <$> computation) := by
  intro state failed
  exact never state (map_eq_error.mp failed)

/-- A pass that reads no missing entry makes an analysis that reads none. -/
theorem of_neverAbsent {computation : Except (Fault E) α} (never : NeverAbsent computation) :
    NeverMisses (computation.mapError .failed) := by
  intro state failed
  cases computation with
  | ok value => simp [Except.mapError] at failed
  | error fault =>
      simp only [Except.mapError, Except.error.injEq, SolveError.failed.injEq] at failed
      subst failed
      exact never state rfl

end NeverMisses

namespace Machine

/-- Every entry that a pass over some values reads is there. -/
structure Readable (machine : Machine V P E) (values : StateMap V) : Prop where
  states_valued : ∀ state ∈ machine.states, state.id ∈ values
  sources_valued : ∀ id, ∀ edge ∈ machine.incoming.getD id [], edge.1.id ∈ values
  sources_zoned : ∀ zones, machine.refreshZones values = .ok zones →
    ∀ id, ∀ edge ∈ machine.incoming.getD id [], edge.1.id ∈ zones

/-- Where a run of the solver can stand when it begins another pass. -/
structure Turn [BEq V] [BEq P] (machine : Machine V P E) (solver : Solver)
    (progress : Progress V P) : Prop where
  begun : ∃ values, (machine.startValues = .ok values ∨
      ∃ checkpoint, machine.resumeValues checkpoint = .ok values) ∧
    ∃ turns < solver.cap, machine.progressAfter turns (.start values) = .ok progress
  unsettled : progress.settled = false

variable {machine : Machine V P E} {values : StateMap V}

/-- The edges grouped under a state leave the states that their transitions name. -/
theorem WellFormed.map_incoming (wellFormed : machine.WellFormed) (id : StateId) :
    (machine.incoming.getD id []).map (fun edge => (edge.1.id, edge.2)) =
      (machine.transitions.filter (·.targets id)).map fun transition =>
        (transition.source, transition) := by
  rw [getD_incoming, List.map_filterMap]
  refine List.filterMap_eq_map_iff_forall_eq_some.mpr fun transition member => ?_
  obtain ⟨source, -, sourceId, lookup⟩ :=
    wellFormed.exists_source (List.mem_of_mem_filter member)
  rw [getElem?_statesById wellFormed, lookup]
  simp [sourceId]

theorem WellFormed.source_mem (wellFormed : machine.WellFormed) {id : StateId}
    {edge : State × Transition P} (grouped : edge ∈ machine.incoming.getD id []) :
    edge.1 ∈ machine.states := by
  rw [getD_incoming, List.mem_filterMap] at grouped
  obtain ⟨transition, -, resolved⟩ := grouped
  rw [getElem?_statesById wellFormed, Option.map_eq_some_iff] at resolved
  obtain ⟨source, lookup, rfl⟩ := resolved
  exact (wellFormed.state?_eq_some_iff.mp lookup).1

theorem Covers.readable (wellFormed : machine.WellFormed) (covers : machine.Covers values) :
    machine.Readable values where
  states_valued state member := covers.mem member
  sources_valued id edge grouped := covers.mem (wellFormed.source_mem grouped)
  sources_zoned zones refreshed id edge grouped := by
    obtain ⟨exits, -, stored⟩ := ((refreshZones_eq_ok_iff wellFormed).mp refreshed).1 edge.1
      (wellFormed.source_mem grouped)
    exact (Std.ExtTreeMap.getElem?_eq_some_iff.mp stored).1

theorem checkedSeed_neverMisses : NeverMisses machine.checkedSeed := by
  intro state failed
  unfold checkedSeed at failed
  repeat' split at failed
  all_goals cases failed

theorem checkCoverage_neverMisses : NeverMisses (machine.checkCoverage values) := by
  intro state failed
  unfold checkCoverage at failed
  split at failed
  all_goals cases failed

theorem initialValue_neverMisses : NeverMisses machine.initialValue := by
  intro state failed
  unfold initialValue at failed
  cases given : machine.assembly.initial <;> simp [given, Except.mapError] at failed

theorem startValues_neverMisses : NeverMisses machine.startValues :=
  checkedSeed_neverMisses.bind fun _ _ =>
    initialValue_neverMisses.bind fun _ _ => NeverMisses.ok _

theorem resumeValues_neverMisses (checkpoint : Checkpoint V) :
    NeverMisses (machine.resumeValues checkpoint) := by
  refine checkedSeed_neverMisses.bind fun seed _ => ?_
  have onward : NeverMisses (do
      machine.checkCoverage checkpoint.semantics
      return checkpoint.semantics.insert seed.id (← machine.initialValue)) :=
    checkCoverage_neverMisses.bind fun _ _ =>
      initialValue_neverMisses.bind fun _ _ => NeverMisses.ok _
  by_cases sameName : checkpoint.machine = machine.name
  · simpa only [sameName, ne_eq, not_true_eq_false, if_false] using onward
  · intro state failed
    simp [sameName, throw, throwThe, MonadExceptOf.throw, Bind.bind, Except.bind] at failed

variable [BEq V] [BEq P]

theorem Anchored.runFrom_neverMisses (anchored : machine.Anchored values) (cap : Nat) :
    NeverMisses (machine.runFrom cap values) := by
  have atStart : machine.Anchored (Progress.start values : Progress V P).semantics := anchored
  exact (NeverMisses.of_neverAbsent (atStart.progressAfter_neverAbsent cap)).map

theorem solve_neverMisses (solver : Solver) : NeverMisses (solver.solve machine).result := by
  rw [result_solve]
  exact startValues_neverMisses.bind fun values started =>
    (anchored_of_startValues started).runFrom_neverMisses solver.cap

theorem resume_neverMisses (solver : Solver) (checkpoint : Checkpoint V) :
    NeverMisses (solver.resume machine checkpoint).result := by
  rw [result_resume]
  exact (resumeValues_neverMisses checkpoint).bind fun values started =>
    (anchored_of_resumeValues started).runFrom_neverMisses solver.cap

theorem verify_neverMisses (values : StateMap V) :
    NeverMisses (machine.verify values).result := by
  simp only [verify, Logged.result_bind, Logged.result_ofExcept, Logged.result_mapError,
    Logged.result_pure]
  refine checkedSeed_neverMisses.bind fun seed accepted => ?_
  refine checkCoverage_neverMisses.bind fun _ covered => ?_
  have wellFormed := (checkedSeed_eq_ok_iff.mp accepted).1
  have covers := checkCoverage_eq_ok_iff.mp covered
  exact (NeverMisses.of_neverAbsent (covers.pass_neverAbsent wellFormed)).bind
    fun outcome _ => NeverMisses.ok outcome.changed

theorem Turn.anchored {solver : Solver} {progress : Progress V P}
    (turn : machine.Turn solver progress) : machine.Anchored progress.semantics := by
  obtain ⟨values, begun, turns, -, reached⟩ := turn.begun
  have anchored : machine.Anchored values := by
    rcases begun with started | ⟨checkpoint, resumed⟩
    · exact anchored_of_startValues started
    · exact anchored_of_resumeValues resumed
  exact (Reaches.start.progressAfter reached).anchored anchored

/-- When a run begins another pass, it has made fewer passes than it may make. -/
theorem Turn.passes_lt {solver : Solver} {progress : Progress V P}
    (turn : machine.Turn solver progress) : progress.passes < solver.cap := by
  obtain ⟨values, -, turns, fewer, reached⟩ := turn.begun
  obtain ⟨-, atMost, -⟩ := passes_of_progressAfter reached
  simp only [Progress.start] at atMost
  omega

/-- Whatever machine and values an analysis is given, it never reads an entry that is
missing. At the start of every pass the values and zones that the pass will read are
there, and the number of the pass is a 64-bit word. A machine without violations has
the seed that is looked up in it, and each of its transitions is grouped under its
target together with its source. -/
theorem every_lookup_finds (machine : Machine V P E) (solver : Solver) :
    (∀ state, (solver.solve machine).result ≠ .error (.failed (.absent state)) ∧
      (∀ checkpoint,
        (solver.resume machine checkpoint).result ≠ .error (.failed (.absent state))) ∧
      ∀ values, (machine.verify values).result ≠ .error (.failed (.absent state))) ∧
    (∀ progress, machine.Turn solver progress → machine.Readable progress.semantics ∧
      (UInt64.ofNat progress.passes + 1).toNat = progress.passes + 1) ∧
    (∀ seed values, machine.checkedSeed = .ok seed → machine.checkCoverage values = .ok () →
      machine.Readable values) ∧
    (machine.violations = [] →
      (∃ seed, machine.states.find? (·.isSeed) = some seed ∧
        machine.checkedSeed = .ok seed) ∧
      ∀ id, (machine.incoming.getD id []).map (fun edge => (edge.1.id, edge.2)) =
        (machine.transitions.filter (·.targets id)).map fun transition =>
          (transition.source, transition)) := by
  refine ⟨fun state => ⟨solve_neverMisses solver state,
      fun checkpoint => resume_neverMisses solver checkpoint state,
      fun values => verify_neverMisses values state⟩, ?_, ?_, ?_⟩
  · intro progress turn
    refine ⟨turn.anchored.covers.readable turn.anchored.wellFormed, ?_⟩
    have fewer := turn.passes_lt
    have bound : solver.cap < 2 ^ 64 := solver.config.maxIterations.toNat_lt
    rw [UInt64.toNat_add, UInt64.toNat_ofNat']
    simp only [UInt64.toNat_one]
    omega
  · intro seed values accepted covered
    have covers := checkCoverage_eq_ok_iff.mp covered
    exact covers.readable (checkedSeed_eq_ok_iff.mp accepted).1
  · intro noViolation
    have wellFormed := violations_eq_nil_iff.mp noViolation
    obtain ⟨seed, -, -, found, -⟩ := wellFormed.exists_seed
    exact ⟨⟨seed, found, checkedSeed_eq_ok_iff.mpr ⟨wellFormed, found⟩⟩,
      wellFormed.map_incoming⟩

/-- The second pass over the ladder, and a pass over its first values, find all they read. -/
theorem ladder_lookups_find : ∃ seed values progress,
    Samples.ladder.checkedSeed = .ok seed ∧ Samples.ladder.startValues = .ok values ∧
      Samples.ladder.Readable values ∧
      Samples.ladder.progressAfter 1 (.start values) = .ok progress ∧
      Samples.ladder.Readable progress.semantics ∧
      (UInt64.ofNat progress.passes + 1).toNat = progress.passes + 1 ∧
      (Samples.ladder.incoming.getD "A" []).map (fun edge => (edge.1.id, edge.2)) =
        [("Seed", .triggered "Seed" "A"), ("C", .triggered "C" "A")] ∧
      (Samples.ladder.verify values).result ≠ .error (.failed (.absent "A")) := by
  have noViolation : Samples.ladder.violations = [] := by decide
  obtain ⟨noneAbsent, turns, verified, grouped⟩ :=
    every_lookup_finds Samples.ladder Solver.standard
  obtain ⟨⟨seed, -, accepted⟩, incoming⟩ := grouped noViolation
  obtain ⟨values, started, covered⟩ : ∃ values, Samples.ladder.startValues = .ok values ∧
      (Samples.ladder.checkCoverage values).toOption.isSome = true :=
    exists_ok_of_any (by decide +kernel)
  obtain ⟨progress, reached, unsettled⟩ : ∃ progress,
      (Samples.ladder.startValues >>= fun values =>
          (Samples.ladder.progressAfter 1 (.start values)).mapError .failed) = .ok progress ∧
        progress.settled = false :=
    exists_ok_of_any (by decide +kernel)
  rw [started, ok_bind, mapError_eq_ok] at reached
  have turn : Samples.ladder.Turn Solver.standard progress :=
    ⟨⟨values, .inl started, 1, by decide, reached⟩, unsettled⟩
  obtain ⟨⟨⟩, covers⟩ := exists_ok_of_isSome covered
  obtain ⟨readable, counted⟩ := turns progress turn
  exact ⟨seed, values, progress, accepted, started, verified seed values accepted covers,
    reached, readable, counted, incoming "A", (noneAbsent "A").2.2 values⟩

end Machine
end ReactiveReach
