import ReactiveReach.Proofs.Height

/-!
# What a history tells of a state

A history keeps the ids of the states that each pass changed, and no values. Where values
are compared by equality it nevertheless tells when a state took a new value and when it
settled, whether or not its values only ever climb: a state that leaves a value and comes
back to it has changed twice. The values in question are those that solving ends with when
it is allowed fewer passes.
-/

namespace ReactiveReach

variable {V P E : Type}

/-- What a history tells of a state is true of the values that the state had, of which
there is one before the first pass and one after each of them. -/
structure History.Describes (history : History) (state : StateId) (passes : Nat)
    (value : Nat → V) : Prop where
  increasing : (history.changesOf state).Pairwise (· < ·)
  mem_changesOf_iff : ∀ pass, pass ∈ history.changesOf state ↔
    1 ≤ pass ∧ pass ≤ passes ∧ value pass ≠ value (pass - 1)
  settledAt_eq : history.settledAt? state = (history.changesOf state).max?
  settles : ∀ last, history.settledAt? state = some last →
    value (last - 1) ≠ value last ∧ ∀ pass, last ≤ pass → pass ≤ passes →
      value pass = value passes
  stays : history.settledAt? state = none → ∀ pass ≤ passes, value pass = value 0

namespace History

variable {history : History} {state : StateId} {passes : Nat} {value : Nat → V}

theorem settledAt_eq_max (increasing : (history.changesOf state).Pairwise (· < ·)) :
    history.settledAt? state = (history.changesOf state).max? := by
  rw [settledAt?]
  cases found : (history.changesOf state).getLast? with
  | none => rw [List.getLast?_eq_none_iff.mp found, List.max?_nil]
  | some last =>
      obtain ⟨earlier, split⟩ := List.getLast?_eq_some_iff.mp found
      rw [split] at increasing ⊢
      refine (List.max?_eq_some_iff.mpr ⟨by simp, fun pass listed => ?_⟩).symm
      rcases List.mem_append.mp listed with before | isLast
      · exact Nat.le_of_lt
          ((List.pairwise_append.mp increasing).2.2 pass before last (by simp))
      · rw [List.mem_singleton.mp isLast]

private theorem eq_of_unchanged {start : Nat}
    (unchanged : ∀ pass, start < pass → pass ≤ passes → value pass = value (pass - 1))
    {pass : Nat} (after : start ≤ pass) (within : pass ≤ passes) : value pass = value start := by
  induction after with
  | refl => rfl
  | @step pass after ih =>
      rw [unchanged (pass + 1) (Nat.lt_succ_of_le after) within, Nat.add_sub_cancel]
      exact ih (Nat.le_of_succ_le within)

theorem describes_of_changesOf_eq [DecidableEq V]
    (changes : history.changesOf state =
      (List.range' 1 passes).filter fun pass => value pass ≠ value (pass - 1)) :
    history.Describes state passes value := by
  have increasing : (history.changesOf state).Pairwise (· < ·) := by
    rw [changes]
    exact (List.pairwise_lt_range' (s := 1) (n := passes)).filter _
  have mem_iff (pass : Nat) : pass ∈ history.changesOf state ↔
      1 ≤ pass ∧ pass ≤ passes ∧ value pass ≠ value (pass - 1) := by
    simp only [changes, List.mem_filter, List.mem_range'_1, decide_eq_true_eq, and_assoc]
    exact and_congr_right fun _ => and_congr_left fun _ => by omega
  have settled := settledAt_eq_max increasing
  refine ⟨increasing, mem_iff, settled, fun last found => ?_, fun none pass within => ?_⟩
  · rw [settled, List.max?_eq_some_iff] at found
    obtain ⟨isChange, greatest⟩ := found
    obtain ⟨-, lastWithin, differs⟩ := (mem_iff last).mp isChange
    have unchanged : ∀ pass, last < pass → pass ≤ passes → value pass = value (pass - 1) := by
      intro pass later within
      by_contra differs
      have := greatest pass ((mem_iff pass).mpr ⟨by omega, within, differs⟩)
      omega
    refine ⟨differs.symm, fun pass after within => ?_⟩
    rw [eq_of_unchanged unchanged after within,
      eq_of_unchanged unchanged lastWithin (Nat.le_refl passes)]
  · rw [settled, List.max?_eq_none_iff] at none
    refine eq_of_unchanged (fun pass positive within => ?_) (Nat.zero_le pass) within
    by_contra differs
    have listed := (mem_iff pass).mpr ⟨positive, within, differs⟩
    rw [none] at listed
    cases listed

end History

theorem Solver.exists_cap_eq (solver : Solver) {passes : Nat} (positive : 1 ≤ passes)
    (within : passes ≤ solver.cap) : ∃ cut : Solver, cut.cap = passes := by
  have fits : passes < UInt64.size :=
    Nat.lt_of_le_of_lt within solver.config.maxIterations.toNat_lt
  have stored : (UInt64.ofNat passes).toNat = passes := UInt64.toNat_ofNat_of_lt' fits
  refine ⟨⟨⟨.ofNat passes⟩, fun none => ?_⟩, stored⟩
  have : passes = 0 := stored.symm.trans (congrArg UInt64.toNat none)
  omega

namespace Machine

variable [BEq V] [BEq P] {machine : Machine V P E} {values : StateMap V}

/-- The values of a state in solves that are allowed at most some number of passes, by the
number that they are allowed. The first is the one that the state has before any pass. -/
structure Trajectory (machine : Machine V P E) (state : State) (passes : Nat)
    (value : Nat → V) : Prop where
  begins : if state.isSeed then machine.assembly.initial = .ok (value 0)
    else value 0 = machine.assembly.bottom
  allowed : ∀ pass, 1 ≤ pass → pass ≤ passes → ∃ cut : Solver, cut.cap = pass
  capped : ∀ cut : Solver, cut.cap ≤ passes → ∃ solution,
    (cut.solve machine).result = .ok solution ∧
      solution.value? state.id = some (value cut.cap)

/-- The values that a state has after each of so many passes from some values. -/
def Visits (machine : Machine V P E) (values : StateMap V) (state : StateId) (passes : Nat)
    (value : Nat → V) : Prop :=
  ∀ pass ≤ passes, ∃ reached, machine.iterates values pass = .ok reached ∧
    reached[state]? = some (value pass)

theorem Anchored.exists_visits (anchored : machine.Anchored values) {passes : Nat}
    {reached : StateMap V} (iterated : machine.iterates values passes = .ok reached)
    {state : State} (member : state ∈ machine.states) :
    ∃ value, machine.Visits values state.id passes value := by
  have each (pass : Nat) : ∃ value, pass ≤ passes → ∃ reached,
      machine.iterates values pass = .ok reached ∧ reached[state.id]? = some value := by
    by_cases within : pass ≤ passes
    · obtain ⟨earlier, before⟩ := exists_iterates_of_le iterated within
      have present := (anchored.iterates before).covers.mem member
      exact ⟨_, fun _ => ⟨earlier, before, Std.ExtTreeMap.getElem?_eq_some_getElem present⟩⟩
    · exact ⟨machine.assembly.bottom, fun assumed => absurd assumed within⟩
  choose value visited using each
  exact ⟨value, visited⟩

theorem Visits.value_eq {state : StateId} {passes : Nat} {value : Nat → V}
    (visits : machine.Visits values state passes value) {pass : Nat} (within : pass ≤ passes)
    {reached : StateMap V} (iterated : machine.iterates values pass = .ok reached) :
    reached[state]? = some (value pass) := by
  obtain ⟨same, iteratedSame, found⟩ := visits pass within
  obtain rfl := Except.ok.inj (iterated.symm.trans iteratedSame)
  exact found

theorem Reaches.changesOf_eq [LawfulBEq V] [DecidableEq V] {progress : Progress V P}
    (reaches : machine.Reaches values progress) (wellFormed : machine.WellFormed)
    {state : StateId} {value : Nat → V}
    (visits : machine.Visits values state progress.passes value) :
    progress.history.changesOf state =
      (List.range' 1 progress.passes).filter fun pass => value pass ≠ value (pass - 1) := by
  induction reaches with
  | start => rfl
  | @pass earlier outcome reached unsettled passed ih =>
      have before : earlier.semantics[state]? = some (value earlier.passes) :=
        visits.value_eq (Nat.le_succ _) reached.iterates_eq
      have after : outcome.semantics[state]? = some (value (earlier.passes + 1)) :=
        visits.value_eq (Nat.le_refl _) (reached.pass unsettled passed).iterates_eq
      have listed_iff : state ∈ outcome.changed ↔
          value (earlier.passes + 1) ≠ value earlier.passes := by
        rw [(isPass_of_pass wellFormed passed).mem_changed_iff, before, after, ne_eq, ne_eq,
          Option.some.injEq]
      rw [Progress.next, History.changesOf_record,
        ih fun pass within => visits pass (Nat.le_succ_of_le within), List.range'_concat,
        List.filter_append, Nat.one_mul, Nat.add_comm 1]
      by_cases listed : state ∈ outcome.changed
      · simp [listed, listed_iff.mp listed]
      · simp [listed, not_not.mp (listed_iff.not.mp listed)]

/-- A run may be allowed fewer passes than it makes, and then ends with the values it had
after them. -/
theorem exists_runFrom_of_le (wellFormed : machine.WellFormed) {cap fewer : Nat}
    (positive : 0 < fewer) (le : fewer ≤ cap) {solution : Solution V P}
    (ended : machine.runFrom cap values = .ok solution) :
    ∃ cut, machine.runFrom fewer values = .ok cut ∧
      machine.iterates values fewer = .ok cut.semantics := by
  obtain ⟨last, whole, -⟩ := runFrom_eq_ok (positive.trans_le le) ended
  obtain ⟨more, rfl⟩ := Nat.exists_eq_add_of_le le
  rw [progressAfter_add, bind_eq_ok] at whole
  obtain ⟨middle, reached, -⟩ := whole
  have cut : machine.runFrom fewer values = .ok (middle.solution fewer) := by
    rw [runFrom, reached]
    rfl
  exact ⟨_, cut, iterates_of_runFrom positive wellFormed cut⟩

theorem Visits.trajectory {solver : Solver} {solution : Solution V P}
    (started : machine.startValues = .ok values)
    (ended : machine.runFrom solver.cap values = .ok solution) {state : State}
    (member : state ∈ machine.states) {passes : Nat} (within : passes ≤ solver.cap)
    {value : Nat → V} (visits : machine.Visits values state.id passes value) :
    machine.Trajectory state passes value := by
  have anchored := anchored_of_startValues started
  have wellFormed := anchored.wellFormed
  have first : values[state.id]? = some (value 0) := visits.value_eq (Nat.zero_le _) rfl
  refine ⟨?_, fun pass positive le => solver.exists_cap_eq positive (le.trans within), ?_⟩
  · split
    · rename_i isSeed
      obtain ⟨seed, initial, found, given, pinned⟩ := anchored.pinned
      have same : state.id = seed.id := wellFormed.eq_of_mem_seeds
        (List.mem_map_of_mem (List.mem_filter.mpr ⟨member, isSeed⟩)) found
      rw [← same, first, Option.some.injEq] at pinned
      rw [given, pinned]
    · rename_i ordinary
      have bottom := getElem?_startValues started
        (List.mem_filter.mpr ⟨member, by simpa using ordinary⟩)
      rw [first, Option.some.injEq] at bottom
      exact bottom
  · intro cut fewer
    obtain ⟨capped, cutEnded, iterated⟩ :=
      exists_runFrom_of_le wellFormed cut.cap_pos (fewer.trans within) ended
    exact ⟨capped, solve_eq_ok_iff.mpr ⟨values, started, cutEnded⟩,
      visits.value_eq fewer iterated⟩

/-- The history of a solve describes the values of every state, which are those that solves
with a smaller cap end with. All that is asked of values is that they are compared by
equality. The changes that were counted are those of all states. -/
theorem history_describes_trajectories [LawfulBEq V] {solver : Solver} {solution : Solution V P}
    (solved : (solver.solve machine).result = .ok solution) :
    (∀ state ∈ machine.states, ∃ value,
      machine.Trajectory state solution.iterations value ∧
        solution.value? state.id = some (value solution.iterations) ∧
        solution.history.Describes state.id solution.iterations value) ∧
      solution.history.totalChanges = (machine.states.map fun state =>
        (solution.history.changesOf state.id).length).sum := by
  classical
  obtain ⟨values, started, ended⟩ := solve_eq_ok_iff.mp solved
  have anchored := anchored_of_startValues started
  obtain ⟨last, -, rfl, reaches, -, within, -⟩ := runFrom_eq_ok solver.cap_pos ended
  constructor
  · intro state member
    obtain ⟨value, visits⟩ := anchored.exists_visits reaches.iterates_eq member
    exact ⟨value, visits.trajectory started ended member within,
      visits.value_eq (Nat.le_refl _) reaches.iterates_eq,
      History.describes_of_changesOf_eq (reaches.changesOf_eq anchored.wellFormed visits)⟩
  · have inOrder : ∀ entry ∈ last.history.toList,
        entry.changed.Sublist (machine.states.map (·.id)) := fun entry member =>
      (reaches.sublist_of_mem_history anchored.wellFormed member).trans
        (List.filter_sublist.map _)
    have counted := History.totalChanges_eq_sum anchored.wellFormed.distinct_ids inOrder
    rwa [List.map_map] at counted

theorem ladder_rung_settles : ∃ solution value cut,
    (Solver.standard.solve Samples.ladder).result = .ok solution ∧
      Samples.ladder.Trajectory (.ordinary "A") 6 value ∧
      solution.history.changesOf "A" = [1, 4] ∧ solution.history.settledAt? "A" = some 4 ∧
      solution.value? "A" = some (value 4) ∧
      (Samples.threePasses.solve Samples.ladder).result = .ok cut ∧
      cut.value? "A" = some (value 3) ∧ value 3 ≠ value 4 := by
  obtain ⟨solution, solved, counted, changes⟩ :
      ∃ solution, (Solver.standard.solve Samples.ladder).result = .ok solution ∧
        solution.iterations = 6 ∧ solution.history.changesOf "A" = [1, 4] :=
    exists_ok_of_any (by decide +kernel)
  obtain ⟨value, trajectory, final, describes⟩ :=
    (history_describes_trajectories solved).1 (.ordinary "A") (by decide)
  rw [counted] at trajectory final describes
  have settled : solution.history.settledAt? "A" = some 4 := by
    rw [History.settledAt?, changes]
    rfl
  obtain ⟨differs, rests⟩ := describes.settles 4 settled
  obtain ⟨cut, cutSolved, found⟩ := trajectory.capped Samples.threePasses (by decide)
  rw [← rests 4 (by decide) (by decide)] at final
  exact ⟨solution, value, cut, solved, trajectory, changes, settled, final, cutSolved, found,
    differs⟩

end Machine
end ReactiveReach
