import Mathlib.Data.List.Perm.Basic
import ReactiveReach.Proofs.Locality
import ReactiveReach.Proofs.Records
import ReactiveReach.Proofs.Safety
import ReactiveReach.Proofs.Telling

/-!
# What the log of a run tells

A pass tells of each transition that it evaluates once its contribution is known, and
is itself told of when it is complete. So the log of a run is an account of the passes
that it completed, which agrees with their records, and on a failure of the transitions
that the last pass still got through. A run that is refused tells nothing.
-/

namespace ReactiveReach

variable {V P E : Type}

theorem flatMap_filter_perm {α κ : Type} [DecidableEq κ] {keys : List κ}
    (distinct : keys.Nodup) (key : α → κ) (items : List α) :
    (keys.flatMap fun here => items.filter (key · == here)).Perm
      (items.filter (key · ∈ keys)) := by
  induction keys with
  | nil => simp
  | cons first rest ih =>
      obtain ⟨fresh, distinct⟩ := List.nodup_cons.mp distinct
      have here : (items.filter (key · ∈ first :: rest)).filter (key · == first) =
          items.filter (key · == first) := by
        rw [List.filter_filter]
        refine List.filter_congr fun item _ => ?_
        by_cases same : key item = first <;> simp [same]
      have there :
          (items.filter (key · ∈ first :: rest)).filter (fun item => !(key item == first)) =
            items.filter (key · ∈ rest) := by
        rw [List.filter_filter]
        refine List.filter_congr fun item _ => ?_
        by_cases same : key item = first <;> simp [same, fresh]
      rw [List.flatMap_cons, ← here]
      refine ((ih distinct).append_left _).trans ?_
      rw [← there]
      exact List.filter_append_perm _ _

/-- The event that tells of the value a transition gave its target. -/
def Transition.told (transition : Transition P) (value : V) : Event V :=
  .contributed transition.source transition.target transition.triggerable value

namespace Machine

/-- The transitions that a pass evaluates, in the order in which it does so: those into one
state after those into the state before it. -/
def evaluated (machine : Machine V P E) : List (Transition P) :=
  machine.recomputed.flatMap fun state => machine.transitions.filter (·.targets state.id)

variable [BEq P]

/-- What a pass over some values tells before it ends, and the failure that ended it. The
exit zones are found first, and nothing is told of them. -/
inductive PassTells (machine : Machine V P E) (values : StateMap V) :
    List (Event V) → Option (Fault E) → Prop where
  | zonesFailed {fault : Fault E} : machine.refreshZones values = .error fault →
      PassTells machine values [] (some fault)
  | evaluated {zones : ZoneMap P} {events : List (Event V)} {stop : Option (Fault E)} :
      machine.refreshZones values = .ok zones →
      ToldInTurn (machine.arrival values) Transition.told machine.evaluated events stop →
      PassTells machine values events stop

variable [BEq V]

/-- What a run from some values tells of the passes that it completed, given their records. -/
inductive PassesTell (machine : Machine V P E) (start : StateMap V) :
    List PassRecord → List (Event V) → Prop where
  | none : PassesTell machine start [] []
  | pass {records : List PassRecord} {log events : List (Event V)} {values : StateMap V}
      {outcome : PassOutcome V P} :
      PassesTell machine start records log →
      machine.iterates start records.length = .ok values →
      (machine.pass machine.incoming values).result = .ok outcome →
      machine.PassTells values events none →
      PassesTell machine start (records ++ [⟨records.length + 1, outcome.changed⟩])
        (log ++ (events ++ [.passed machine.name (records.length + 1) outcome.changed.length]))

/-- What a run tells that begins with the event `first` and breaks off at the failure of an
operation. Either there is no initial value, or the run tells of its passes and of the one
that failed, which it still had left. -/
inductive BreaksOff (machine : Machine V P E) (solver : Solver) (first : Event V)
    (start : Except (SolveError E) (StateMap V)) (cause : E) : List (Event V) → Prop where
  | atStart : machine.assembly.initial = .error cause →
      BreaksOff machine solver first start cause [first]
  | inPass {values before : StateMap V} {records : List PassRecord}
      {log events : List (Event V)} :
      start = .ok values → records.length < solver.cap →
      machine.PassesTell values records log →
      machine.iterates values records.length = .ok before →
      machine.PassTells before events (some (.operation cause)) →
      BreaksOff machine solver first start cause (first :: log ++ events)

/-- The log of a run is an account of it that begins with the event `first`. A run that
ends in a solution tells of its passes, of the cap if it has not come to rest, and of its
end. A run that fails breaks off. -/
structure Recounts (machine : Machine V P E) (solver : Solver) (first : Event V)
    (start : Except (SolveError E) (StateMap V))
    (run : Logged (Event V) (SolveError E) (Solution V P)) : Prop where
  solved : ∀ solution, run.result = .ok solution → ∃ values log,
    start = .ok values ∧ machine.PassesTell values solution.history.toList log ∧
      run.events = first :: log ++
        (if solution.isConverged then [] else [.capReached machine.name solver.cap]) ++
          [.completed machine.name solution.iterations solution.isConverged]
  failed : ∀ failure, run.result = .error failure → ∃ cause,
    failure = .failed (.operation cause) ∧
      machine.BreaksOff solver first start cause run.events
  levels : ∀ solution, run.result = .ok solution →
    run.events.map Event.level = first.level ::
      solution.history.toList.flatMap
          (fun _ => List.replicate machine.evaluated.length Level.trace ++ [Level.debug]) ++
        (if solution.isConverged then [] else [Level.warn]) ++ [Level.info]

variable {machine : Machine V P E} {values : StateMap V}

omit [BEq V] [BEq P] in
theorem evaluated_perm (wellFormed : machine.WellFormed) :
    machine.evaluated.Perm (machine.transitions.filter (·.target ∉ machine.seeds)) := by
  have grouped : machine.evaluated = (machine.recomputed.map (·.id)).flatMap fun id =>
      machine.transitions.filter (·.target == id) := by
    rw [List.flatMap_map]
    rfl
  have targets : machine.transitions.filter (·.target ∈ machine.recomputed.map (·.id)) =
      machine.transitions.filter (·.target ∉ machine.seeds) := by
    refine List.filter_congr fun transition member => ?_
    obtain ⟨state, stateMem, sameId⟩ := wellFormed.exists_target member
    rw [decide_eq_decide, ← sameId, ← wellFormed.mem_recomputed_iff stateMem]
    constructor
    · intro listed
      obtain ⟨other, recomputed, otherId⟩ := List.mem_map.mp listed
      have otherMem : other ∈ machine.states := List.mem_of_mem_filter recomputed
      rwa [← wellFormed.eq_of_id_eq otherMem stateMem otherId]
    · exact List.mem_map_of_mem
  rw [grouped, ← targets]
  exact flatMap_filter_perm wellFormed.recomputed_nodup _ _

section Pass

omit [BEq V]

theorem given_of_incoming (wellFormed : machine.WellFormed) {id : StateId}
    {edge : State × Transition P} (grouped : edge ∈ machine.incoming.getD id [])
    (values : StateMap V) (zones : ZoneMap P) :
    edge.2 ∈ machine.transitions ∧
      machine.given values zones edge.2 = machine.givenFrom values zones edge.1 edge.2 := by
  rw [getD_incoming, List.mem_filterMap] at grouped
  obtain ⟨transition, into, resolved⟩ := grouped
  rw [getElem?_statesById wellFormed, Option.map_eq_some_iff] at resolved
  obtain ⟨source, lookup, rfl⟩ := resolved
  refine ⟨List.mem_of_mem_filter into, ?_⟩
  simp only [given, lookup]

theorem joinIncoming_eq (zones : ZoneMap P) (edges : List (State × Transition P)) :
    machine.joinIncoming values zones edges =
      edges.foldlM (fun joined edge => do
        let value ← Logged.ofExcept (machine.givenFrom values zones edge.1 edge.2)
        Logged.emit (edge.2.told value)
        return machine.assembly.join joined value) machine.assembly.bottom := by
  unfold joinIncoming
  congr 1
  funext joined ⟨source, transition⟩
  simp only [givenFrom, Transition.contribution]
  cases (entryOf values source.id : Except (Fault E) V) with
  | error fault => rfl
  | ok value =>
      cases (entryOf zones source.id : Except (Fault E) (List (ExitZone P))) with
      | error fault => rfl
      | ok exits =>
          simp only [ok_bind, Logged.ofExcept_ok, pure_bind]
          cases transition.contribute machine.assembly source value exits <;> rfl

theorem tells_joinIncoming (wellFormed : machine.WellFormed) {zones : ZoneMap P}
    (refreshed : machine.refreshZones values = .ok zones) (id : StateId) :
    (machine.joinIncoming values zones (machine.incoming.getD id [])).Tells
      (machine.arrival values) Transition.told (machine.transitions.filter (·.targets id)) := by
  have transitions : (machine.incoming.getD id []).map (·.2) =
      machine.transitions.filter (·.targets id) := by
    have grouped := congrArg (List.map (·.2)) (wellFormed.map_incoming id)
    simpa [Function.comp_def] using grouped
  rw [joinIncoming_eq, ← transitions]
  apply Logged.Tells.foldlM
  intro edge grouped joined
  obtain ⟨member, from_source⟩ := given_of_incoming wellFormed grouped values zones
  rw [← from_source, given_eq_arrival wellFormed refreshed member]
  exact .single edge.2 _

variable [BEq V]

theorem passTells_of_pass (wellFormed : machine.WellFormed) (covers : machine.Covers values) :
    machine.PassTells values (machine.pass machine.incoming values).events
      (machine.pass machine.incoming values).failure? := by
  unfold pass
  cases refreshed : machine.refreshZones values with
  | error fault => exact .zonesFailed refreshed
  | ok zones =>
      rw [Logged.ofExcept_ok, pure_bind]
      refine .evaluated refreshed (Logged.Tells.bind_silent ?_ fun results _ => .pure _)
      refine Logged.Tells.mapM fun state recomputed => ?_
      refine (tells_joinIncoming wellFormed refreshed state.id).bind_silent fun after _ => ?_
      have isState : state ∈ machine.states := List.mem_of_mem_filter recomputed
      obtain ⟨before, found⟩ : ∃ before, values[state.id]? = some before :=
        ⟨_, Std.ExtTreeMap.getElem?_eq_some_getElem (covers.mem isState)⟩
      rw [entryOf_eq_ok.mpr found, Logged.ofExcept_ok, pure_bind]
      exact .pure _

end Pass

section Advance

variable {progress : Progress V P}

theorem events_advance_ok {outcome : PassOutcome V P}
    (passed : (machine.pass machine.incoming progress.semantics).result = .ok outcome) :
    (progress.advance machine machine.incoming).events =
      (machine.pass machine.incoming progress.semantics).events ++
        [.passed machine.name (progress.passes + 1) outcome.changed.length] := by
  rw [Progress.advance, Logged.events_bind_ok passed]
  rfl

theorem events_advance_error {fault : Fault E}
    (failed : (machine.pass machine.incoming progress.semantics).result = .error fault) :
    (progress.advance machine machine.incoming).events =
      (machine.pass machine.incoming progress.semantics).events := by
  rw [Progress.advance, Logged.events_bind_error failed]

end Advance

section Run

/-- After what `log` tells, the passes that a computation makes are told of too, up to the
end or to the pass that fails, which is one of the first `limit`. -/
structure TellsOn (machine : Machine V P E) (values : StateMap V) (log : List (Event V))
    (limit : Nat) (rest : Logged (Event V) (Fault E) (Progress V P)) : Prop where
  completed : ∀ last, rest.result = .ok last →
    machine.PassesTell values last.history.toList (log ++ rest.events)
  cutOff : ∀ fault, rest.result = .error fault → ∃ records earlier before events,
    records.length < limit ∧ machine.PassesTell values records earlier ∧
      machine.iterates values records.length = .ok before ∧
      machine.PassTells before events (some fault) ∧ log ++ rest.events = earlier ++ events

variable {progress : Progress V P} {log : List (Event V)} {limit : Nat}

theorem tellsOn_pure (tells : machine.PassesTell values progress.history.toList log) :
    machine.TellsOn values log limit (pure progress) where
  completed last ended := by
    obtain rfl : progress = last := Except.ok.inj ended
    simpa using tells
  cutOff fault ended := by cases ended

theorem TellsOn.of_failure (tells : machine.PassesTell values progress.history.toList log)
    (iterated : machine.iterates values progress.history.toList.length = .ok progress.semantics)
    {events : List (Event V)} {fault : Fault E}
    (told : machine.PassTells progress.semantics events (some fault))
    (fewer : progress.history.toList.length < limit) :
    machine.TellsOn values log limit ⟨events, .error fault⟩ where
  completed last ended := by cases ended
  cutOff other ended := by
    obtain rfl : fault = other := Except.error.inj ended
    exact ⟨_, log, _, events, fewer, tells, iterated, told, rfl⟩

theorem TellsOn.after {events : List (Event V)}
    {rest : Logged (Event V) (Fault E) (Progress V P)}
    (onward : machine.TellsOn values (log ++ events) limit rest) :
    machine.TellsOn values log limit ⟨events ++ rest.events, rest.result⟩ where
  completed last ended := by
    rw [← List.append_assoc]
    exact onward.completed last ended
  cutOff fault ended := by
    rw [← List.append_assoc]
    exact onward.cutOff fault ended

/-- The passes that are left add their account to that of the passes so far. -/
theorem PassesTell.iterate (tells : machine.PassesTell values progress.history.toList log)
    (reaches : machine.Reaches values progress) (anchored : machine.Anchored values)
    (left : Nat) :
    machine.TellsOn values log (progress.passes + left)
      (Logged.iterate (Progress.advance machine machine.incoming) (·.settled) left progress) := by
  -- What was told before is generalised with the progress: a pass adds to both at once.
  induction left generalizing progress log with
  | zero => exact tellsOn_pure tells
  | succ left ih =>
      rw [Logged.iterate_succ]
      cases settled : progress.settled with
      | true => exact tellsOn_pure tells
      | false =>
          rw [if_neg Bool.false_ne_true]
          have length : progress.history.toList.length = progress.passes := by
            rw [← History.length_eq]
            exact reaches.recorded.length_eq
          have here := reaches.anchored anchored
          have told := passTells_of_pass here.wellFormed here.covers
          have iterated := reaches.iterates_eq
          rw [← length] at iterated
          have advanced := Progress.result_advance machine machine.incoming progress
          cases passed : (machine.pass machine.incoming progress.semantics).result with
          | error fault =>
              rw [passed] at advanced
              rw [Logged.failure?_of_error passed] at told
              rw [Logged.bind_of_error advanced, events_advance_error passed]
              exact .of_failure tells iterated told (by omega)
          | ok outcome =>
              rw [passed] at advanced
              rw [Logged.failure?_of_ok passed] at told
              have records : (progress.next outcome).history.toList =
                  progress.history.toList ++ [⟨progress.passes + 1, outcome.changed⟩] :=
                History.toList_record _ _
              have toldNext := tells.pass iterated passed told
              rw [length, ← records] at toldNext
              have onward := (ih toldNext (reaches.pass settled passed)).after
              rw [Logged.bind_of_ok advanced, events_advance_ok passed, Nat.add_succ,
                ← Nat.succ_add]
              exact onward

/-- Every completed pass has told of what it evaluates at the lowest level, and of itself at
the next one. -/
theorem PassesTell.levels {records : List PassRecord}
    (tells : machine.PassesTell values records log) :
    log.map Event.level = records.flatMap
      fun _ => List.replicate machine.evaluated.length Level.trace ++ [Level.debug] := by
  induction tells with
  | none => rfl
  | @pass records log events _ outcome _ _ _ told ih =>
      have traces : events.map Event.level =
          List.replicate machine.evaluated.length Level.trace := by
        cases told with
        | evaluated _ inTurn => exact inTurn.map_eq_replicate fun _ _ => rfl
      simp [ih, traces, Event.level]

end Run

section Account

variable {solver : Solver}

omit [BEq V] [BEq P] in
theorem isConverged_solution (progress : Progress V P) (cap : Nat) :
    (progress.solution cap).isConverged = progress.settled := by
  cases settled : progress.settled <;> simp [Progress.solution, Solution.isConverged, settled]

theorem run_of_error {fault : Fault E} {events : List (Event V)}
    (failed : Logged.iterate (Progress.advance machine machine.incoming) (·.settled) solver.cap
      (.start values) = ⟨events, .error fault⟩) :
    solver.run machine values = ⟨events, .error (.failed fault)⟩ := by
  rw [Solver.run, failed]
  rfl

theorem run_of_ok {last : Progress V P} {events : List (Event V)}
    (ended : Logged.iterate (Progress.advance machine machine.incoming) (·.settled) solver.cap
      (.start values) = ⟨events, .ok last⟩) :
    solver.run machine values = ⟨events ++
        ((if last.settled then [] else [.capReached machine.name solver.cap]) ++
          [.completed machine.name last.passes last.settled]),
      .ok (last.solution solver.cap)⟩ := by
  rw [Solver.run, ended]
  obtain ⟨semantics, zones, passes, history, settled⟩ := last
  cases settled <;> rfl

theorem recounts_of_ok {start : Except (SolveError E) (StateMap V)}
    (started : start = .ok values) {last : Progress V P} {log : List (Event V)}
    (tells : machine.PassesTell values last.history.toList log) (first : Event V) :
    machine.Recounts solver first start ⟨first :: (log ++
        ((if last.settled then [] else [.capReached machine.name solver.cap]) ++
          [.completed machine.name last.passes last.settled])),
      .ok (last.solution solver.cap)⟩ where
  solved solution ended := by
    obtain rfl := Except.ok.inj ended
    refine ⟨values, log, started, tells, ?_⟩
    rw [isConverged_solution, List.append_assoc]
    rfl
  failed failure ended := by cases ended
  levels solution ended := by
    obtain rfl := Except.ok.inj ended
    rw [isConverged_solution, List.map_cons, List.map_append, tells.levels]
    cases settled : last.settled <;> simp [Progress.solution, Event.level]

theorem recounts_of_error {start : Except (SolveError E) (StateMap V)} {first : Event V}
    {cause : E} {events : List (Event V)}
    (breaks : machine.BreaksOff solver first start cause events) :
    machine.Recounts solver first start ⟨events, .error (.failed (.operation cause))⟩ where
  solved solution ended := by cases ended
  failed failure ended := ⟨cause, (Except.error.inj ended).symm, breaks⟩
  levels solution ended := by cases ended

theorem recounts_of_anchored (anchored : machine.Anchored values)
    {start : Except (SolveError E) (StateMap V)} (started : start = .ok values)
    (first : Event V) :
    machine.Recounts solver first start
      ⟨first :: (solver.run machine values).events, (solver.run machine values).result⟩ := by
  have atStart : machine.PassesTell values
      (Progress.start values : Progress V P).history.toList [] := .none
  have tellsOn := atStart.iterate .start anchored solver.cap
  cases ran : Logged.iterate (Progress.advance machine machine.incoming) (·.settled) solver.cap
      (.start values) with
  | mk events result =>
      rw [ran] at tellsOn
      cases result with
      | error fault =>
          rw [run_of_error ran]
          have failed : machine.runFrom solver.cap values = .error (.failed fault) := by
            rw [← result_run, run_of_error ran]
          obtain ⟨cause, same⟩ := anchored.exists_cause failed
          obtain rfl : fault = .operation cause := by simpa using same
          obtain ⟨records, log, before, last, fewer, rest⟩ := tellsOn.cutOff _ rfl
          obtain ⟨told, iterated, cutOff, parts⟩ := rest
          have inTime : records.length < solver.cap := by simpa [Progress.start] using fewer
          obtain rfl : events = log ++ last := parts
          exact recounts_of_error (.inPass started inTime told iterated cutOff)
      | ok last =>
          rw [run_of_ok ran]
          have told := tellsOn.completed last rfl
          rw [List.nil_append] at told
          exact recounts_of_ok started told first

theorem recounts_of_begins {start : Except (SolveError E) (StateMap V)}
    {place : V → StateMap V} (begins : start = place <$> machine.initialValue)
    (anchored : ∀ values, start = .ok values → machine.Anchored values) (first : Event V) :
    machine.Recounts solver first start (do
      Logged.emit first
      let initial ← Logged.ofExcept machine.initialValue
      solver.run machine (place initial)) := by
  cases given : machine.assembly.initial with
  | error cause =>
      have missing : machine.initialValue = .error (.failed (.operation cause)) := by
        rw [initialValue, given]
        rfl
      rw [missing]
      exact recounts_of_error (.atStart given)
  | ok initial =>
      have present := initialValue_eq_ok_iff.mpr given
      have started : start = .ok (place initial) := by
        rw [begins, present]
        rfl
      rw [present]
      exact recounts_of_anchored (anchored _ started) started first

end Account

theorem events_of_not_wellFormed (refused : ¬machine.WellFormed) (solver : Solver) :
    (solver.solve machine).events = [] ∧
      ∀ checkpoint, (solver.resume machine checkpoint).events = [] := by
  have malformed := checkedSeed_of_not_wellFormed refused
  refine ⟨?_, fun checkpoint => ?_⟩
  · rw [Solver.solve, malformed]
    rfl
  · rw [Solver.resume, malformed]
    rfl

theorem events_of_refused_checkpoint {seed : State} (accepted : machine.checkedSeed = .ok seed)
    {checkpoint : Checkpoint V}
    (refused : checkpoint.machine ≠ machine.name ∨ ¬machine.Covers checkpoint.semantics)
    (solver : Solver) : (solver.resume machine checkpoint).events = [] := by
  rw [Solver.resume, accepted]
  by_cases sameName : checkpoint.machine = machine.name
  · have uncovered := refused.resolve_left (not_not.mpr sameName)
    cases covered : machine.checkCoverage checkpoint.semantics with
    | ok => exact absurd (checkCoverage_eq_ok_iff.mp covered) uncovered
    | error failure =>
        simp only [sameName, ne_eq, not_true_eq_false, if_false]
        rfl
  · simp only [ne_eq, sameName, not_false_eq_true, if_true]
    rfl

/-- A run that is refused, because of the machine or of the checkpoint, has an empty log.
Any other run tells that it begins, of each pass that it completes and then that it ends,
or breaks off where an operation failed. A pass tells of every transition but those into
the seed, in the order of the states and then of the transitions. -/
theorem log_recounts_run (machine : Machine V P E) (solver : Solver) :
    (¬machine.WellFormed → (solver.solve machine).events = []) ∧
    (∀ checkpoint, ¬machine.WellFormed ∨ checkpoint.machine ≠ machine.name ∨
        ¬machine.Covers checkpoint.semantics →
      (solver.resume machine checkpoint).events = []) ∧
    (machine.WellFormed →
      machine.evaluated.Perm (machine.transitions.filter (·.target ∉ machine.seeds)) ∧
      machine.Recounts solver
        (.started machine.name machine.states.length machine.transitions.length)
        machine.startValues (solver.solve machine)) ∧
    ∀ checkpoint, machine.WellFormed → checkpoint.machine = machine.name →
      machine.Covers checkpoint.semantics →
        machine.Recounts solver
          (.resumed machine.name checkpoint.id checkpoint.iterations.toNat)
          (machine.resumeValues checkpoint) (solver.resume machine checkpoint) := by
  by_cases wellFormed : machine.WellFormed
  · obtain ⟨seed, -, -, found, -⟩ := wellFormed.exists_seed
    have accepted := checkedSeed_eq_ok_iff.mpr ⟨wellFormed, found⟩
    refine ⟨absurd wellFormed, ?_, fun _ => ⟨evaluated_perm wellFormed, ?_⟩, ?_⟩
    · intro checkpoint refused
      have refused := refused.resolve_left (not_not.mpr wellFormed)
      exact events_of_refused_checkpoint accepted refused solver
    · have begins := startValues_eq_map wellFormed found
      rw [Solver.solve, accepted]
      exact recounts_of_begins begins (fun _ => anchored_of_startValues) _
    · intro checkpoint _ sameName covers
      have covered := checkCoverage_eq_ok_iff.mpr covers
      have begins := resumeValues_eq_map wellFormed found sameName covers
      simp only [Solver.resume, accepted, sameName, ne_eq, not_true_eq_false, if_false, covered]
      exact recounts_of_begins begins (fun _ => anchored_of_resumeValues) _
  · obtain ⟨solving, resuming⟩ := events_of_not_wellFormed wellFormed solver
    exact ⟨fun _ => solving, fun checkpoint _ => resuming checkpoint,
      fun accepted => absurd accepted wellFormed,
      fun _ accepted => absurd accepted wellFormed⟩

theorem ladder_logs_recount :
    ((Samples.twoPasses.resume Samples.straightLadder Samples.astray).events.map Event.level =
      Level.info :: (List.replicate 5 Level.trace ++ [Level.debug]) ++
        (List.replicate 5 Level.trace ++ [Level.debug]) ++ [Level.warn, Level.info]) ∧
    ((Solver.standard.solve Samples.brokenLadder).events.length = 14 ∧
      ∃ values records log before events,
        Samples.brokenLadder.startValues = .ok values ∧
          Samples.brokenLadder.PassesTell values records log ∧
          Samples.brokenLadder.iterates values records.length = .ok before ∧
          Samples.brokenLadder.PassTells before events
            (some (.operation (.unknownTransition "lift" "up2"))) ∧
          (Solver.standard.solve Samples.brokenLadder).events =
            .started "ladder" 4 4 :: log ++ events) ∧
    (Solver.standard.resume Samples.ladder Samples.astray).events = [] ∧
    (Solver.standard.solve { Samples.ladder with states := [] }).events = [] := by
  have straight : Samples.straightLadder.WellFormed := violations_eq_nil_iff.mp (by decide)
  have broken : Samples.brokenLadder.WellFormed := violations_eq_nil_iff.mp (by decide)
  have stateless : ¬Machine.WellFormed { Samples.ladder with states := [] } :=
    mt violations_eq_nil_iff.mpr (by decide)
  have uncovered : ¬Samples.ladder.Covers Samples.astray.semantics := by
    intro covers
    have known : Samples.ladder.knows "D" = true := (covers "D").mp (by decide +kernel)
    exact absurd known (by decide)
  have covered : Samples.straightLadder.Covers Samples.astray.semantics :=
    checkCoverage_eq_ok_iff.mp (by decide +kernel)
  obtain ⟨solution, resumed, passes, unconverged⟩ : ∃ solution,
      (Samples.twoPasses.resume Samples.straightLadder Samples.astray).result = .ok solution ∧
        solution.history.toList.length = 2 ∧ solution.isConverged = false :=
    exists_ok_of_any (by decide +kernel)
  have failed : (Solver.standard.solve Samples.brokenLadder).result =
      .error (.failed (.operation (.unknownTransition "lift" "up2"))) :=
    eq_error_of_computed (by decide +kernel)
  refine ⟨?_, ⟨by decide +kernel, ?_⟩, ?_, ?_⟩
  · obtain ⟨-, -, -, resuming⟩ := log_recounts_run Samples.straightLadder Samples.twoPasses
    obtain ⟨first, second, records⟩ := List.length_eq_two.mp passes
    rw [(resuming Samples.astray straight rfl covered).levels solution resumed, records,
      unconverged]
    rfl
  · obtain ⟨-, -, solving, -⟩ := log_recounts_run Samples.brokenLadder Solver.standard
    obtain ⟨cause, same, breaks⟩ := (solving broken).2.failed _ failed
    obtain rfl : Samples.BitError.unknownTransition "lift" "up2" = cause := by simpa using same
    generalize (Solver.standard.solve Samples.brokenLadder).events = told at breaks ⊢
    cases breaks with
    | atStart missing => cases missing
    | inPass started _ tells iterated cutOff =>
        exact ⟨_, _, _, _, _, started, tells, iterated, cutOff, rfl⟩
  · obtain ⟨-, refused, -⟩ := log_recounts_run Samples.ladder Solver.standard
    exact refused Samples.astray (.inr (.inr uncovered))
  · obtain ⟨refused, -⟩ :=
      log_recounts_run { Samples.ladder with states := [] } Solver.standard
    exact refused stateless

end Machine
end ReactiveReach
