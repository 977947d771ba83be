import ReactiveReach.Proofs.Run

/-!
# Lookups find what they ask for

A pass reads the values and the zones of states without asking whether they are
there. From values that cover a well-formed machine every entry it reads exists, so
that a run over such a machine fails only where an operation on values fails, and with
a cause with which the operations of the machine can fail.
-/

namespace ReactiveReach

variable {V P E α β : Type}

/-- The failure is that of an operation, with a cause of some kind. -/
def Fault.IsOperation (kind : E → Prop) (fault : Fault E) : Prop :=
  ∃ cause, fault = .operation cause ∧ kind cause

/-- The analysis failed with an operation, whose cause is of some kind. -/
def SolveError.IsOperation (kind : E → Prop) (failure : SolveError E) : Prop :=
  ∃ cause, failure = .failed (.operation cause) ∧ kind cause

/-- Computations that never read a missing entry. -/
def NeverAbsent (computation : Except (Fault E) α) : Prop :=
  ∀ state, computation ≠ .error (.absent state)

theorem FailsOnly.of_operation {kind : E → Prop} {computation : Except E α}
    (only : FailsOnly kind computation) :
    FailsOnly (Fault.IsOperation kind) (computation.mapError .operation) :=
  only.mapError fun cause isKind => ⟨cause, rfl, isKind⟩

theorem FailsOnly.entryOf {kind : Fault E → Prop} {map : StateMap α} {state : StateId}
    (present : state ∈ map) : FailsOnly kind (entryOf map state) := by
  have found : (ReactiveReach.entryOf map state : Except (Fault E) α) = .ok map[state] :=
    entryOf_eq_ok.mpr (Std.ExtTreeMap.getElem?_eq_some_getElem present)
  rw [found]
  exact .ok _

/-- What fails only by operations reads no missing entry. -/
theorem FailsOnly.neverAbsent {kind : E → Prop} {computation : Except (Fault E) α}
    (only : FailsOnly (Fault.IsOperation kind) computation) : NeverAbsent computation := by
  intro state failed
  obtain ⟨cause, ⟨⟩, -⟩ := only _ failed

theorem NeverAbsent.exists_cause {computation : Except (Fault E) α}
    (never : NeverAbsent computation) {fault : Fault E} (failed : computation = .error fault) :
    ∃ cause, fault = .operation cause := by
  cases fault with
  | absent state => exact absurd failed (never state)
  | operation cause => exact ⟨cause, rfl⟩

namespace Machine

/-- The operations of a machine fail only with causes of some kind. -/
structure OperationsFailOnly (machine : Machine V P E) (kind : E → Prop) : Prop where
  initial : FailsOnly kind machine.assembly.initial
  fire : ∀ submachine step value, FailsOnly kind (machine.assembly.fire submachine step value)
  deliver : ∀ submachine event value,
    FailsOnly kind (machine.assembly.deliver submachine event value)
  meaning : ∀ predicate, FailsOnly kind (machine.assembly.meaning predicate)
  exits : ∀ state value, FailsOnly kind (machine.exits state value)

variable {machine : Machine V P E} {values : StateMap V} {kind : E → Prop}

theorem operationsFailOnly_true (machine : Machine V P E) :
    machine.OperationsFailOnly fun _ => True := by
  constructor <;> intros <;> exact fun _ _ => trivial

theorem OperationsFailOnly.contribute [BEq P] (operations : machine.OperationsFailOnly kind)
    (transition : Transition P) (source : State) (value : V) (zones : List (ExitZone P)) :
    FailsOnly kind (transition.contribute machine.assembly source value zones) := by
  have fired : FailsOnly kind (transition.fired machine.assembly source value zones) := by
    unfold Transition.fired
    split
    · refine FailsOnly.bind ?_ fun guarded _ => .ok _
      cases transition.guard with
      | always => exact .ok _
      | holds predicate => exact operations.meaning predicate
    · exact .foldlM (fun zone _ reached =>
        (operations.fire zone.submachine zone.step value).bind fun next _ => .ok _) _
  exact fired.bind fun before _ => .foldlM (fun action _ value =>
    operations.deliver action.submachine action.event value) before

theorem Covers.refreshZones_failsOnly (covers : machine.Covers values)
    (operations : machine.OperationsFailOnly kind) :
    FailsOnly (Fault.IsOperation kind) (machine.refreshZones values) := by
  refine .foldlM (fun state member zones => ?_) ∅
  refine FailsOnly.bind ?_ fun exits _ => .ok _
  unfold zonesUnder
  split
  · exact .ok []
  · exact (FailsOnly.entryOf (covers.mem member)).bind fun value _ =>
      (operations.exits state value).of_operation

variable [BEq P]

theorem Covers.joinedAt_failsOnly (wellFormed : machine.WellFormed)
    (covers : machine.Covers values) (operations : machine.OperationsFailOnly kind)
    {zones : ZoneMap P} (refreshed : machine.refreshZones values = .ok zones) (id : StateId) :
    FailsOnly (Fault.IsOperation kind) (machine.joinedAt values zones id) := by
  refine .foldlM (fun transition member joined => ?_) _
  refine FailsOnly.bind ?_ fun value _ => .ok _
  obtain ⟨source, sourceMem, -, lookup⟩ :=
    wellFormed.exists_source (List.mem_of_mem_filter member)
  obtain ⟨exits, -, stored⟩ := ((refreshZones_eq_ok_iff wellFormed).mp refreshed).1 source
    sourceMem
  obtain ⟨hasZones, -⟩ := Std.ExtTreeMap.getElem?_eq_some_iff.mp stored
  simp only [given, lookup, givenFrom]
  exact (FailsOnly.entryOf (covers.mem sourceMem)).bind fun value _ =>
    (FailsOnly.entryOf hasZones).bind fun exits _ =>
      (operations.contribute transition source value exits).of_operation

variable [BEq V]

theorem Covers.pass_failsOnly (wellFormed : machine.WellFormed)
    (covers : machine.Covers values) (operations : machine.OperationsFailOnly kind) :
    FailsOnly (Fault.IsOperation kind) (machine.pass machine.incoming values).result := by
  rw [result_pass wellFormed]
  refine (covers.refreshZones_failsOnly operations).bind fun zones refreshed => ?_
  refine FailsOnly.bind (.mapM fun state member => ?_) fun results _ => .ok _
  have isState : state ∈ machine.states := List.mem_of_mem_filter member
  exact (covers.joinedAt_failsOnly wellFormed operations refreshed state.id).bind fun after _ =>
    (FailsOnly.entryOf (covers.mem isState)).bind fun before _ => .ok _

theorem Anchored.progressAfter_failsOnly (limit : Nat) {progress : Progress V P}
    (anchored : machine.Anchored progress.semantics)
    (operations : machine.OperationsFailOnly kind) :
    FailsOnly (Fault.IsOperation kind) (machine.progressAfter limit progress) := by
  induction limit generalizing progress with
  | zero => exact .ok progress
  | succ limit ih =>
      cases settled : progress.settled with
      | true =>
          rw [progressAfter_of_settled settled]
          exact .ok progress
      | false =>
          rw [progressAfter_succ settled]
          exact (anchored.covers.pass_failsOnly anchored.wellFormed operations).bind
            fun outcome passed => ih (anchored.pass passed)

theorem Covers.pass_neverAbsent (wellFormed : machine.WellFormed)
    (covers : machine.Covers values) :
    NeverAbsent (machine.pass machine.incoming values).result :=
  (covers.pass_failsOnly wellFormed machine.operationsFailOnly_true).neverAbsent

theorem Anchored.progressAfter_neverAbsent (limit : Nat) {progress : Progress V P}
    (anchored : machine.Anchored progress.semantics) :
    NeverAbsent (machine.progressAfter limit progress) :=
  (anchored.progressAfter_failsOnly limit machine.operationsFailOnly_true).neverAbsent

theorem Anchored.runFrom_failsOnly (anchored : machine.Anchored values)
    (operations : machine.OperationsFailOnly kind) (cap : Nat) :
    FailsOnly (SolveError.IsOperation kind) (machine.runFrom cap values) := by
  have atStart : machine.Anchored (Progress.start values : Progress V P).semantics := anchored
  have run : FailsOnly (SolveError.IsOperation kind)
      ((machine.progressAfter cap (.start values)).mapError .failed) := by
    refine (atStart.progressAfter_failsOnly cap operations).mapError ?_
    rintro _ ⟨cause, rfl, isKind⟩
    exact ⟨cause, rfl, isKind⟩
  exact run.map _

theorem run_failsOnly {start : Except (SolveError E) (StateMap V)} {place : V → StateMap V}
    (begins : start = place <$> machine.initialValue)
    (anchored : ∀ values, start = .ok values → machine.Anchored values)
    (operations : machine.OperationsFailOnly kind) (cap : Nat) :
    FailsOnly (SolveError.IsOperation kind) (start >>= machine.runFrom cap) := by
  refine FailsOnly.bind ?_ fun values started =>
    (anchored values started).runFrom_failsOnly operations cap
  have given : FailsOnly (SolveError.IsOperation kind) machine.initialValue :=
    operations.initial.mapError fun cause isKind => ⟨cause, rfl, isKind⟩
  rw [begins]
  exact given.map place

/-- Solving a well-formed machine fails with a cause with which its operations can fail. -/
theorem WellFormed.solve_failsOnly (wellFormed : machine.WellFormed)
    (operations : machine.OperationsFailOnly kind) (solver : Solver) :
    FailsOnly (SolveError.IsOperation kind) (solver.solve machine).result := by
  obtain ⟨seed, -, -, found, -⟩ := wellFormed.exists_seed
  rw [result_solve]
  exact run_failsOnly (startValues_eq_map wellFormed found) (fun _ => anchored_of_startValues)
    operations solver.cap

theorem Anchored.exists_cause (anchored : machine.Anchored values) {cap : Nat}
    {failure : SolveError E} (failed : machine.runFrom cap values = .error failure) :
    ∃ cause, failure = .failed (.operation cause) := by
  obtain ⟨cause, same, -⟩ :=
    anchored.runFrom_failsOnly machine.operationsFailOnly_true cap failure failed
  exact ⟨cause, same⟩

theorem WellFormed.exists_cause (wellFormed : machine.WellFormed) {solver : Solver}
    {failure : SolveError E} (failed : (solver.solve machine).result = .error failure) :
    ∃ cause, failure = .failed (.operation cause) := by
  obtain ⟨cause, same, -⟩ :=
    wellFormed.solve_failsOnly machine.operationsFailOnly_true solver failure failed
  exact ⟨cause, same⟩

theorem WellFormed.exists_cause_of_resume (wellFormed : machine.WellFormed) {solver : Solver}
    {checkpoint : Checkpoint V} (sameName : checkpoint.machine = machine.name)
    (covers : machine.Covers checkpoint.semantics) {failure : SolveError E}
    (failed : (solver.resume machine checkpoint).result = .error failure) :
    ∃ cause, failure = .failed (.operation cause) := by
  obtain ⟨seed, -, -, found, -⟩ := wellFormed.exists_seed
  have begins := resumeValues_eq_map wellFormed found sameName covers
  rw [result_resume] at failed
  obtain ⟨cause, same, -⟩ := run_failsOnly begins (fun _ => anchored_of_resumeValues)
    machine.operationsFailOnly_true solver.cap failure failed
  exact ⟨cause, same⟩

theorem solve_malformed_iff {solver : Solver} :
    (∃ violations, (solver.solve machine).result =
        .error (.malformed machine.name violations)) ↔ ¬machine.WellFormed := by
  constructor
  · rintro ⟨violations, refused⟩ wellFormed
    obtain ⟨cause, ⟨⟩⟩ := wellFormed.exists_cause refused
  · intro malformed
    refine ⟨machine.violations, ?_⟩
    rw [result_solve, startValues, checkedSeed_of_not_wellFormed malformed]
    rfl

/-- A machine that is not malformed is solved unless an operation fails. -/
theorem solve_failed_iff {solver : Solver} :
    (∃ cause, (solver.solve machine).result = .error (.failed (.operation cause))) ↔
      machine.WellFormed ∧ ¬∃ solution, (solver.solve machine).result = .ok solution := by
  constructor
  · rintro ⟨cause, failed⟩
    refine ⟨?_, ?_⟩
    · by_contra refused
      obtain ⟨violations, malformed⟩ := solve_malformed_iff.mpr refused
      rw [malformed] at failed
      cases failed
    · rintro ⟨solution, solved⟩
      rw [solved] at failed
      cases failed
  · rintro ⟨wellFormed, unsolved⟩
    cases solved : (solver.solve machine).result with
    | ok solution => exact absurd ⟨solution, solved⟩ unsolved
    | error failure =>
        obtain ⟨cause, rfl⟩ := wellFormed.exists_cause solved
        exact ⟨cause, rfl⟩

theorem WellFormed.exists_solution (wellFormed : machine.WellFormed) {solver : Solver}
    (noFailure : ∀ cause, (solver.solve machine).result ≠ .error (.failed (.operation cause))) :
    ∃ solution, (solver.solve machine).result = .ok solution := by
  cases solved : (solver.solve machine).result with
  | ok solution => exact ⟨solution, rfl⟩
  | error failure =>
      obtain ⟨cause, rfl⟩ := wellFormed.exists_cause solved
      exact absurd solved (noFailure cause)

end Machine
end ReactiveReach
