import ReactiveReach.Proofs.FixedPoint
import ReactiveReach.Proofs.Lookups

/-!
# Why an analysis fails

Resuming and verifying look at the machine, then at the name on the checkpoint, then at
the states that have values, and only after that does an operation on values run. So a
failure is either a refusal, which the shape of the machine and the ids decide, or the
cause with which the initial value or one of the passes failed. There is no third kind,
and where neither is the case there is an outcome.
-/

namespace ReactiveReach

variable {V P E W F α β : Type}

/-- Why values are not even looked at. -/
inductive Refusal where
  | malformed (violations : List Violation)
  | foreign (checkpoint : String)
  | incomplete (missing unexpected : List StateId)

def Refusal.failure (machine : String) : Refusal → SolveError E
  | malformed violations => .malformed machine violations
  | foreign checkpoint => .foreignCheckpoint machine checkpoint
  | incomplete missing unexpected => .incomplete machine missing unexpected

namespace Machine

/-- What keeps some values from being for exactly the states of the machine. States
without a value come in the order of the machine, ids of no state in the order of ids. -/
structure CoverageGap (machine : Machine V P E) (values : StateMap V)
    (missing unexpected : List StateId) : Prop where
  mem_missing_iff : ∀ id, id ∈ missing ↔ machine.knows id = true ∧ id ∉ values
  mem_unexpected_iff : ∀ id, id ∈ unexpected ↔ id ∈ values ∧ machine.knows id = false
  in_machine_order : missing.Sublist (machine.states.map (·.id))
  in_id_order : unexpected.Pairwise (· < ·)
  distinct : (missing ++ unexpected).Nodup
  not_empty : missing ++ unexpected ≠ []

/-- Why values that are named after some machine are refused. A reason counts only where
none of those before it holds. -/
inductive Refused (machine : Machine V P E) (name : String) (values : StateMap V) :
    Refusal → Prop
  | malformed : machine.violations ≠ [] →
      Refused machine name values (.malformed machine.violations)
  | foreign : machine.violations = [] → name ≠ machine.name →
      Refused machine name values (.foreign name)
  | incomplete {missing unexpected : List StateId} : machine.violations = [] →
      name = machine.name → ¬machine.Covers values →
      machine.CoverageGap values missing unexpected →
      Refused machine name values (.incomplete missing unexpected)

/-- Values that no check refuses. -/
structure Accepts (machine : Machine V P E) (name : String) (values : StateMap V) : Prop where
  accepted : machine.violations = []
  same_name : name = machine.name
  covers : machine.Covers values

/-- The causes with which a run from some values can fail, once the seed is to have its
initial value there: that of the initial value, and that of a pass the run is allowed. -/
inductive FailsFrom [BEq V] [BEq P] (machine : Machine V P E) (cap : Nat)
    (values : StateMap V) (cause : E) : Prop
  | initial : machine.assembly.initial = .error cause → FailsFrom machine cap values cause
  | pass {seed : StateId} {initial : V} {passes : Nat} {reached : StateMap V} :
      machine.seeds = [seed] → machine.assembly.initial = .ok initial → passes < cap →
      machine.iterates (values.insert seed initial) passes = .ok reached →
      (machine.pass machine.incoming reached).result = .error (.operation cause) →
      FailsFrom machine cap values cause

/-- Machines that differ in nothing but their operations and exit zones. -/
structure SameShape (machine : Machine V P E) (other : Machine W P F) : Prop where
  name : machine.name = other.name
  states : machine.states = other.states
  transitions : machine.transitions = other.transitions

/-- A result that fails with a refusal where there is one, else with the cause of an
operation that fails, and else is there. -/
structure FailsJustFor (machine : Machine V P E) (name : String) (values : StateMap V)
    (fails : E → Prop) (result : Except (SolveError E) α) : Prop where
  error_iff : ∀ failure, result = .error failure ↔
    (∃ refusal, machine.Refused name values refusal ∧ failure = refusal.failure machine.name) ∨
      machine.Accepts name values ∧
        ∃ cause, failure = .failed (.operation cause) ∧ fails cause
  ok_iff : (∃ value, result = .ok value) ↔
    machine.Accepts name values ∧ ∀ cause, ¬fails cause

end Machine

/-- Results of which one is some refusal exactly if the other is. -/
def RefusedAlike (machine : String) (first : Except (SolveError E) α)
    (second : Except (SolveError F) β) : Prop :=
  ∀ refusal : Refusal,
    first = .error (refusal.failure machine) ↔ second = .error (refusal.failure machine)

theorem Refusal.failure_inj {machine : String} {refusal other : Refusal} :
    (refusal.failure machine : SolveError E) = other.failure machine ↔ refusal = other := by
  cases refusal <;> cases other <;> simp [failure]

theorem Refusal.failure_ne_failed {machine : String} {refusal : Refusal} {fault : Fault E} :
    refusal.failure machine ≠ .failed fault := by
  cases refusal <;> simp [failure]

namespace Machine

variable {machine : Machine V P E} {other : Machine W P F} {name : String}
  {values : StateMap V} {others : StateMap W}

/-! ## Refusals -/

theorem coverageGap_of_not_covers (wellFormed : machine.WellFormed)
    (uncovering : ¬machine.Covers values) :
    machine.CoverageGap values (machine.uncovered values) (machine.unexpected values) := by
  have mem_missing (id : StateId) :
      id ∈ machine.uncovered values ↔ machine.knows id = true ∧ id ∉ values := by
    simp [uncovered, knows_iff, ← Std.ExtTreeMap.contains_iff_mem]
  have mem_unexpected (id : StateId) :
      id ∈ machine.unexpected values ↔ id ∈ values ∧ machine.knows id = false := by
    simp [unexpected]
  refine ⟨mem_missing, mem_unexpected, List.filter_sublist, ?_, ?_, ?_⟩
  · have ordered := (Std.ExtTreeMap.ordered_keys (t := values)).filter (!machine.knows ·)
    exact ordered.imp compareOfLessAndEq_eq_lt.mp
  · have keysDistinct : values.keys.Nodup :=
      Std.ExtTreeMap.distinct_keys.imp fun apart => by simpa using apart
    refine List.nodup_append'.mpr
      ⟨wellFormed.distinct_ids.filter _, keysDistinct.filter _, ?_⟩
    intro id isMissing isUnexpected
    exact ((mem_missing id).mp isMissing).2 ((mem_unexpected id).mp isUnexpected).1
  · intro none
    obtain ⟨noneMissing, noneUnexpected⟩ := List.append_eq_nil_iff.mp none
    refine uncovering (checkCoverage_eq_ok_iff.mp ?_)
    rw [checkCoverage, noneMissing, noneUnexpected]

theorem CoverageGap.eq (wellFormed : machine.WellFormed)
    {missing unexpected otherMissing otherUnexpected : List StateId}
    (gap : machine.CoverageGap values missing unexpected)
    (otherGap : machine.CoverageGap values otherMissing otherUnexpected) :
    missing = otherMissing ∧ unexpected = otherUnexpected := by
  obtain ⟨missingDistinct, unexpectedDistinct, -⟩ := List.nodup_append'.mp gap.distinct
  obtain ⟨otherMissingDistinct, otherUnexpectedDistinct, -⟩ :=
    List.nodup_append'.mp otherGap.distinct
  constructor
  · apply (List.Nodup.perm_iff_eq_of_sublist wellFormed.distinct_ids gap.in_machine_order
      otherGap.in_machine_order).mp
    apply (List.perm_ext_iff_of_nodup missingDistinct otherMissingDistinct).mpr
    intro id
    rw [gap.mem_missing_iff, otherGap.mem_missing_iff]
  · have perm : unexpected.Perm otherUnexpected := by
      apply (List.perm_ext_iff_of_nodup unexpectedDistinct otherUnexpectedDistinct).mpr
      intro id
      rw [gap.mem_unexpected_iff, otherGap.mem_unexpected_iff]
    refine perm.eq_of_pairwise ?_ gap.in_id_order otherGap.in_id_order
    intro earlier later _ _ less greater
    exact absurd less (String.lt_asymm greater)

theorem checkCoverage_of_gap (wellFormed : machine.WellFormed)
    (uncovering : ¬machine.Covers values) {missing unexpected : List StateId}
    (gap : machine.CoverageGap values missing unexpected) :
    machine.checkCoverage values = .error (.incomplete machine.name missing unexpected) := by
  have found := coverageGap_of_not_covers wellFormed uncovering
  obtain ⟨rfl, rfl⟩ := gap.eq wellFormed found
  unfold checkCoverage
  split
  · rename_i noneMissing noneUnexpected
    exact absurd (by rw [noneMissing, noneUnexpected, List.append_nil]) gap.not_empty
  · rfl

theorem exists_refused (refuses : ¬machine.Accepts name values) :
    ∃ refusal, machine.Refused name values refusal := by
  by_cases accepted : machine.violations = []
  · by_cases sameName : name = machine.name
    · by_cases covers : machine.Covers values
      · exact absurd ⟨accepted, sameName, covers⟩ refuses
      · exact ⟨_, .incomplete accepted sameName covers
          (coverageGap_of_not_covers (violations_eq_nil_iff.mp accepted) covers)⟩
    · exact ⟨_, .foreign accepted sameName⟩
  · exact ⟨_, .malformed accepted⟩

namespace Refused

variable {refusal found : Refusal} {result : Except (SolveError E) α} {fails : E → Prop}

theorem unique (refused : machine.Refused name values refusal)
    (refusedToo : machine.Refused name values found) : refusal = found := by
  cases refused with
  | malformed violated =>
      cases refusedToo with
      | malformed => rfl
      | foreign accepted | incomplete accepted => exact absurd accepted violated
  | foreign accepted foreign =>
      cases refusedToo with
      | malformed violated => exact absurd accepted violated
      | foreign => rfl
      | incomplete _ sameName => exact absurd sameName foreign
  | incomplete accepted sameName _ gap =>
      cases refusedToo with
      | malformed violated => exact absurd accepted violated
      | foreign _ foreign => exact absurd sameName foreign
      | incomplete _ _ _ otherGap =>
          obtain ⟨rfl, rfl⟩ := gap.eq (violations_eq_nil_iff.mp accepted) otherGap
          rfl

theorem not_accepts (refused : machine.Refused name values refusal) :
    ¬machine.Accepts name values := by
  intro accepts
  cases refused with
  | malformed violated => exact violated accepts.accepted
  | foreign _ foreign => exact foreign accepts.same_name
  | incomplete _ _ uncovering => exact uncovering accepts.covers

theorem failsJustFor (refused : machine.Refused name values refusal)
    (failed : result = .error (refusal.failure machine.name)) :
    machine.FailsJustFor name values fails result := by
  have notAccepted := refused.not_accepts
  subst failed
  refine ⟨fun failure => ⟨?_, ?_⟩, ⟨?_, ?_⟩⟩
  · rintro ⟨⟩
    exact .inl ⟨refusal, refused, rfl⟩
  · rintro (⟨found, refusedToo, rfl⟩ | ⟨accepts, -⟩)
    · rw [refused.unique refusedToo]
    · exact absurd accepts notAccepted
  · rintro ⟨value, ⟨⟩⟩
  · rintro ⟨accepts, -⟩
    exact absurd accepts notAccepted

/-- Only the shape of the machine, the name and the ids decide about a refusal. -/
theorem of_sameShape (refused : machine.Refused name values refusal)
    (same : machine.SameShape other) (sameIds : ∀ id, id ∈ values ↔ id ∈ others) :
    other.Refused name others refusal := by
  have knows : machine.knows = other.knows := by
    funext id
    rw [Machine.knows, Machine.knows, same.states]
  have violations : machine.violations = other.violations := by
    simp only [Machine.violations, seedViolations, seeds, endpointViolations, knows, same.states,
      same.transitions]
  cases refused with
  | malformed violated =>
      rw [violations] at violated ⊢
      exact .malformed violated
  | foreign accepted foreign => exact .foreign (violations ▸ accepted) (same.name ▸ foreign)
  | incomplete accepted sameName uncovering gap =>
      refine .incomplete (violations ▸ accepted) (same.name ▸ sameName) ?_ ?_
      · simpa only [Covers, sameIds, knows] using uncovering
      · refine ⟨?_, ?_, same.states ▸ gap.in_machine_order, gap.in_id_order, gap.distinct,
          gap.not_empty⟩
        · simpa only [sameIds, knows] using gap.mem_missing_iff
        · simpa only [sameIds, knows] using gap.mem_unexpected_iff

end Refused

theorem SameShape.symm (same : machine.SameShape other) : other.SameShape machine :=
  ⟨same.name.symm, same.states.symm, same.transitions.symm⟩

theorem Accepts.failsJustFor {result : Except (SolveError E) α} {fails : E → Prop}
    (accepts : machine.Accepts name values)
    (error_iff : ∀ failure, result = .error failure ↔
      ∃ cause, failure = .failed (.operation cause) ∧ fails cause) :
    machine.FailsJustFor name values fails result := by
  refine ⟨fun failure => ?_, ⟨?_, ?_⟩⟩
  · rw [error_iff]
    constructor
    · exact fun failed => .inr ⟨accepts, failed⟩
    · rintro (⟨refusal, refused, -⟩ | ⟨-, failed⟩)
      · exact absurd accepts refused.not_accepts
      · exact failed
  · rintro ⟨value, rfl⟩
    refine ⟨accepts, fun cause failed => ?_⟩
    have impossible := (error_iff _).mpr ⟨cause, rfl, failed⟩
    cases impossible
  · rintro ⟨-, never⟩
    cases result with
    | ok value => exact ⟨value, rfl⟩
    | error failure =>
        obtain ⟨cause, -, failed⟩ := (error_iff failure).mp rfl
        exact absurd failed (never cause)

namespace FailsJustFor

variable {fails : E → Prop} {otherFails : F → Prop} {result : Except (SolveError E) α}
  {otherResult : Except (SolveError F) β}

theorem refusal_iff (failsJustFor : machine.FailsJustFor name values fails result)
    {refusal : Refusal} : result = .error (refusal.failure machine.name) ↔
      machine.Refused name values refusal := by
  rw [failsJustFor.error_iff]
  constructor
  · rintro (⟨found, refused, same⟩ | ⟨-, cause, failed, -⟩)
    · rwa [Refusal.failure_inj.mp same]
    · exact absurd failed Refusal.failure_ne_failed
  · exact fun refused => .inl ⟨refusal, refused, rfl⟩

theorem refusedAlike (failsJustFor : machine.FailsJustFor name values fails result)
    (otherFailsJustFor : other.FailsJustFor name others otherFails otherResult)
    (same : machine.SameShape other) (sameIds : ∀ id, id ∈ values ↔ id ∈ others) :
    RefusedAlike machine.name result otherResult := by
  intro refusal
  rw [failsJustFor.refusal_iff, same.name, otherFailsJustFor.refusal_iff]
  exact ⟨fun refused => refused.of_sameShape same sameIds,
    fun refused => refused.of_sameShape same.symm fun id => (sameIds id).symm⟩

end FailsJustFor

variable [BEq V] [BEq P]

theorem Refused.resume {checkpoint : Checkpoint V} {refusal : Refusal}
    (refused : machine.Refused checkpoint.machine checkpoint.semantics refusal)
    (solver : Solver) :
    (solver.resume machine checkpoint).result = .error (refusal.failure machine.name) := by
  rw [result_resume]
  cases refused with
  | malformed violated =>
      rw [resumeValues, checkedSeed_of_not_wellFormed (violations_eq_nil_iff.not.mp violated)]
      rfl
  | foreign accepted foreign =>
      rw [resumeValues_of_foreign (violations_eq_nil_iff.mp accepted) foreign]
      rfl
  | incomplete accepted sameName uncovering gap =>
      have wellFormed := violations_eq_nil_iff.mp accepted
      rw [resumeValues_of_refused wellFormed sameName
        (checkCoverage_of_gap wellFormed uncovering gap)]
      rfl

theorem Refused.verify {refusal : Refusal}
    (refused : machine.Refused machine.name values refusal) :
    (machine.verify values).result = .error (refusal.failure machine.name) := by
  simp only [Machine.verify, Logged.result_bind, Logged.result_ofExcept]
  cases refused with
  | malformed violated =>
      rw [checkedSeed_of_not_wellFormed (violations_eq_nil_iff.not.mp violated)]
      rfl
  | foreign _ foreign => exact absurd rfl foreign
  | incomplete accepted _ uncovering gap =>
      have wellFormed := violations_eq_nil_iff.mp accepted
      obtain ⟨seed, -, -, found, -⟩ := wellFormed.exists_seed
      rw [checkedSeed_eq_ok_iff.mpr ⟨wellFormed, found⟩,
        checkCoverage_of_gap wellFormed uncovering gap]
      rfl

/-! ## Failures of operations -/

theorem exists_failing_pass {limit : Nat} {progress : Progress V P} {fault : Fault E}
    (failed : machine.progressAfter limit progress = .error fault)
    (reaches : machine.Reaches values progress) :
    ∃ passes reached, passes < progress.passes + limit ∧
      machine.iterates values passes = .ok reached ∧
      (machine.pass machine.incoming reached).result = .error fault := by
  induction limit generalizing progress with
  | zero => cases failed
  | succ limit ih =>
      cases settled : progress.settled with
      | true =>
          rw [progressAfter_of_settled settled] at failed
          cases failed
      | false =>
          rw [progressAfter_succ settled] at failed
          cases passed : (machine.pass machine.incoming progress.semantics).result with
          | error found =>
              rw [passed, error_bind, Except.error.injEq] at failed
              exact ⟨progress.passes, progress.semantics, by omega, reaches.iterates_eq,
                failed ▸ passed⟩
          | ok outcome =>
              rw [passed, ok_bind] at failed
              obtain ⟨passes, reached, fewer, iterated, fails⟩ :=
                ih failed (reaches.pass settled passed)
              simp only [Progress.next] at fewer
              exact ⟨passes, reached, by omega, iterated, fails⟩

theorem passes_le_of_failing_pass {passes later : Nat} {reached laterReached : StateMap V}
    {fault : Fault E} (iterated : machine.iterates values passes = .ok reached)
    (fails : (machine.pass machine.incoming reached).result = .error fault)
    (laterIterated : machine.iterates values later = .ok laterReached) : later ≤ passes := by
  by_contra more
  obtain ⟨next, nextIterated⟩ :=
    exists_iterates_of_le laterIterated (by omega : passes + 1 ≤ later)
  obtain ⟨_, outcome, sameIterated, passed, -⟩ := iterates_succ_eq_ok.mp nextIterated
  obtain rfl := Except.ok.inj (iterated.symm.trans sameIterated)
  rw [fails] at passed
  cases passed

/-- A run fails exactly if one of the passes it is allowed does, and with the same cause. -/
theorem Anchored.runFrom_eq_error_iff (anchored : machine.Anchored values) {cap : Nat}
    (positive : 0 < cap) {failure : SolveError E} :
    machine.runFrom cap values = .error failure ↔ ∃ cause passes reached, passes < cap ∧
      machine.iterates values passes = .ok reached ∧
      (machine.pass machine.incoming reached).result = .error (.operation cause) ∧
      failure = .failed (.operation cause) := by
  have failing {failure : SolveError E} (failed : machine.runFrom cap values = .error failure) :
      ∃ cause passes reached, passes < cap ∧ machine.iterates values passes = .ok reached ∧
        (machine.pass machine.incoming reached).result = .error (.operation cause) ∧
        failure = .failed (.operation cause) := by
    obtain ⟨cause, rfl⟩ := anchored.exists_cause failed
    rw [runFrom, map_eq_error] at failed
    cases ended : machine.progressAfter cap (.start values) with
    | ok last => simp [ended, Except.mapError] at failed
    | error fault =>
        obtain rfl : fault = .operation cause := by simpa [ended, Except.mapError] using failed
        obtain ⟨passes, reached, fewer, iterated, fails⟩ := exists_failing_pass ended .start
        simp only [Progress.start, Nat.zero_add] at fewer
        exact ⟨cause, passes, reached, fewer, iterated, fails, rfl⟩
  refine ⟨failing, ?_⟩
  rintro ⟨cause, passes, reached, fewer, iterated, fails, rfl⟩
  cases ended : machine.runFrom cap values with
  | ok solution =>
      have whole := iterates_of_runFrom positive anchored.wellFormed ended
      have := passes_le_of_failing_pass iterated fails whole
      omega
  | error found =>
      -- The pass that the run fails in can only be the one that is given.
      obtain ⟨otherCause, others, otherReached, -, otherIterated, otherFails, rfl⟩ :=
        failing ended
      have atMost := passes_le_of_failing_pass iterated fails otherIterated
      have atLeast := passes_le_of_failing_pass otherIterated otherFails iterated
      obtain rfl : others = passes := Nat.le_antisymm atMost atLeast
      obtain rfl := Except.ok.inj (otherIterated.symm.trans iterated)
      rw [fails, Except.error.injEq] at otherFails
      rw [otherFails]

theorem Accepts.resume_eq_error_iff {checkpoint : Checkpoint V}
    (accepts : machine.Accepts checkpoint.machine checkpoint.semantics) {solver : Solver}
    {failure : SolveError E} :
    (solver.resume machine checkpoint).result = .error failure ↔ ∃ cause,
      failure = .failed (.operation cause) ∧
        machine.FailsFrom solver.cap checkpoint.semantics cause := by
  have wellFormed := violations_eq_nil_iff.mp accepts.accepted
  obtain ⟨seed, onlySeed⟩ := wellFormed.one_seed
  rw [result_resume]
  cases given : machine.assembly.initial with
  | error cause =>
      obtain ⟨state, -, -, found, -⟩ := wellFormed.exists_seed
      rw [resumeValues_eq_map wellFormed found accepts.same_name accepts.covers, initialValue,
        given]
      constructor
      · rintro ⟨⟩
        exact ⟨cause, rfl, .initial given⟩
      · rintro ⟨otherCause, rfl, otherGiven | ⟨-, otherGiven, -⟩⟩
        · rw [given, Except.error.injEq] at otherGiven
          rw [otherGiven]
          rfl
        · rw [given] at otherGiven
          cases otherGiven
  | ok initial =>
      have started := resumeValues_of_covers wellFormed accepts.same_name accepts.covers
        onlySeed given
      rw [started, ok_bind,
        (anchored_of_resumeValues started).runFrom_eq_error_iff solver.cap_pos]
      constructor
      · rintro ⟨cause, passes, reached, fewer, iterated, fails, rfl⟩
        exact ⟨cause, rfl, .pass onlySeed given fewer iterated fails⟩
      · rintro ⟨cause, rfl, otherGiven | ⟨sameSeed, sameInitial, fewer, iterated, fails⟩⟩
        · rw [given] at otherGiven
          cases otherGiven
        · obtain rfl : seed = _ := by simpa [onlySeed] using sameSeed
          obtain rfl := Except.ok.inj (given.symm.trans sameInitial)
          exact ⟨cause, _, _, fewer, iterated, fails, rfl⟩

theorem Accepts.verify_eq_error_iff (accepts : machine.Accepts machine.name values)
    {failure : SolveError E} :
    (machine.verify values).result = .error failure ↔ ∃ cause,
      failure = .failed (.operation cause) ∧
        (machine.pass machine.incoming values).result = .error (.operation cause) := by
  have wellFormed := violations_eq_nil_iff.mp accepts.accepted
  have never := accepts.covers.pass_neverAbsent wellFormed
  rw [result_verify wellFormed accepts.covers]
  cases passed : (machine.pass machine.incoming values).result with
  | ok outcome => simp [Functor.map, Except.map, Except.mapError]
  | error fault =>
      obtain ⟨cause, rfl⟩ := never.exists_cause passed
      simp [Functor.map, Except.map, Except.mapError, eq_comm]

theorem resume_failsJustFor (solver : Solver) (checkpoint : Checkpoint V) :
    machine.FailsJustFor checkpoint.machine checkpoint.semantics
      (machine.FailsFrom solver.cap checkpoint.semantics)
      (solver.resume machine checkpoint).result := by
  by_cases accepts : machine.Accepts checkpoint.machine checkpoint.semantics
  · exact accepts.failsJustFor fun _ => accepts.resume_eq_error_iff
  · obtain ⟨refusal, refused⟩ := exists_refused accepts
    exact refused.failsJustFor (refused.resume solver)

theorem verify_failsJustFor (values : StateMap V) :
    machine.FailsJustFor machine.name values
      (fun cause => (machine.pass machine.incoming values).result = .error (.operation cause))
      (machine.verify values).result := by
  by_cases accepts : machine.Accepts machine.name values
  · exact accepts.failsJustFor fun _ => accepts.verify_eq_error_iff
  · obtain ⟨refusal, refused⟩ := exists_refused accepts
    exact refused.failsJustFor refused.verify

/-- Resuming and verifying fail for just the reasons there are, the first of them that
holds: a malformed machine, for resuming a checkpoint of another machine, values for other
states, and the failure of an operation, which is that of the initial value or of a pass
for resuming and that of the one pass for verifying. Where none holds there is an outcome.
Whether values are refused, and how, is the same for machines of one shape, whatever their
values and operations are and with whatever values the same states are covered. -/
theorem fails_just_for_reasons (machine : Machine V P E) :
    (∀ (solver : Solver) (checkpoint : Checkpoint V),
      machine.FailsJustFor checkpoint.machine checkpoint.semantics
        (machine.FailsFrom solver.cap checkpoint.semantics)
        (solver.resume machine checkpoint).result) ∧
    (∀ values : StateMap V, machine.FailsJustFor machine.name values
      (fun cause => (machine.pass machine.incoming values).result = .error (.operation cause))
      (machine.verify values).result) ∧
    ∀ {W F : Type} [BEq W] (other : Machine W P F), machine.SameShape other →
      (∀ (solver otherSolver : Solver) (checkpoint : Checkpoint V)
        (otherCheckpoint : Checkpoint W), checkpoint.machine = otherCheckpoint.machine →
        (∀ id, id ∈ checkpoint.semantics ↔ id ∈ otherCheckpoint.semantics) →
        RefusedAlike machine.name (solver.resume machine checkpoint).result
          (otherSolver.resume other otherCheckpoint).result) ∧
      ∀ (values : StateMap V) (others : StateMap W), (∀ id, id ∈ values ↔ id ∈ others) →
        RefusedAlike machine.name (machine.verify values).result
          (other.verify others).result := by
  refine ⟨resume_failsJustFor, verify_failsJustFor, fun other same => ⟨?_, ?_⟩⟩
  · intro solver otherSolver checkpoint otherCheckpoint sameName sameIds
    have failsJustFor : machine.FailsJustFor checkpoint.machine checkpoint.semantics _ _ :=
      resume_failsJustFor solver checkpoint
    rw [sameName] at failsJustFor
    exact failsJustFor.refusedAlike (resume_failsJustFor otherSolver otherCheckpoint) same sameIds
  · intro values others sameIds
    have failsJustFor : machine.FailsJustFor machine.name values _ _ := verify_failsJustFor values
    rw [same.name] at failsJustFor
    exact failsJustFor.refusedAlike (verify_failsJustFor others) same sameIds

theorem ladder_failures :
    (Solver.standard.resume Samples.ladder Samples.astray).result =
        .error (.incomplete "ladder" [] ["D"]) ∧
      (Samples.twoPasses.resume Samples.jammedLadder ⟨7, "jammed", Samples.earlyMorning,
        "ladder", 0, Samples.astray.semantics.map fun _ _ => ()⟩).result =
          .error (.incomplete "ladder" [] ["D"]) ∧
      Samples.ladder.CoverageGap Samples.astray.semantics [] ["D"] ∧
      Samples.brokenLadder.FailsFrom Solver.standard.cap (Samples.halfway "halfway" 1).semantics
        (.unknownTransition "lift" "up2") ∧
      (Samples.jammedLadder.verify ∅).result =
        .error (.incomplete "ladder" ["Seed", "A", "B", "C"] []) := by
  obtain ⟨resumes, -, alike⟩ := fails_just_for_reasons Samples.ladder
  obtain ⟨resumesAlike, verifiesAlike⟩ := alike Samples.jammedLadder ⟨rfl, rfl, rfl⟩
  have refused : (Solver.standard.resume Samples.ladder Samples.astray).result =
      .error (.incomplete "ladder" [] ["D"]) := eq_error_of_computed (by decide +kernel)
  have refusedToo := resumesAlike Solver.standard Samples.twoPasses Samples.astray
    ⟨7, "jammed", Samples.earlyMorning, "ladder", 0, Samples.astray.semantics.map fun _ _ => ()⟩
    rfl fun id => Std.ExtTreeMap.mem_map.symm
  have gap : Samples.ladder.CoverageGap Samples.astray.semantics [] ["D"] := by
    rcases ((resumes _ _).error_iff _).mp refused with ⟨refusal, reason, same⟩ | ⟨-, _, ⟨⟩, -⟩
    cases reason with
    | incomplete _ _ _ gap =>
        simp only [Refusal.failure, SolveError.incomplete.injEq] at same
        obtain ⟨-, rfl, rfl⟩ := same
        exact gap
    | _ => simp [Refusal.failure] at same
  have broken : (Solver.standard.resume Samples.brokenLadder (Samples.halfway "halfway" 1)).result =
      .error (.failed (.operation (.unknownTransition "lift" "up2"))) :=
    eq_error_of_computed (by decide +kernel)
  have fails : Samples.brokenLadder.FailsFrom Solver.standard.cap
      (Samples.halfway "halfway" 1).semantics (.unknownTransition "lift" "up2") := by
    obtain ⟨brokenResumes, -, -⟩ := fails_just_for_reasons Samples.brokenLadder
    rcases ((brokenResumes _ _).error_iff _).mp broken with
      ⟨refusal, -, same⟩ | ⟨-, cause, same, fails⟩
    · exact absurd same.symm Refusal.failure_ne_failed
    · obtain rfl : Samples.BitError.unknownTransition "lift" "up2" = cause := by simpa using same
      exact fails
  have empty : (Samples.ladder.verify ∅).result =
      .error (.incomplete "ladder" ["Seed", "A", "B", "C"] []) :=
    eq_error_of_computed (by decide +kernel)
  exact ⟨refused, (refusedToo (.incomplete [] ["D"])).mp refused, gap, fails,
    (verifiesAlike ∅ ∅ (by simp) (.incomplete ["Seed", "A", "B", "C"] [])).mp empty⟩

end Machine
end ReactiveReach
