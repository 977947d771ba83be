import ReactiveReach.Proofs.Interruption

/-!
# What a checkpoint counts

A run counts its passes from one, also when it goes on from a checkpoint: resuming tells
the log about the passes that were made before and does not add them to its own. So a
checkpoint counts the passes of the one run that it was taken from. In a chain of runs
this is the number of all passes made so far for the first checkpoint only, because every
run makes a pass.
-/

namespace ReactiveReach

variable {V P E : Type} [BEq V] [BEq P] {machine : Machine V P E}

theorem Solver.Returns.iterations_bounds {solver : Solver} {solution : Solution V P}
    (returned : solver.Returns machine solution) :
    0 < solution.iterations ∧ solution.iterations < UInt64.size := by
  obtain ⟨values, -, ended⟩ := returned.exists_run
  obtain ⟨last, -, rfl, -, moved, atMost, -⟩ := Machine.runFrom_eq_ok solver.cap_pos ended
  have bound : solver.cap < UInt64.size := solver.config.maxIterations.toNat_lt
  exact ⟨moved, Nat.lt_of_le_of_lt atMost bound⟩

omit [BEq V] [BEq P] in
theorem Solution.iterations_checkpoint {solution : Solution V P}
    (bound : solution.iterations < UInt64.size) (id : String) (createdAt : Instant)
    (machine : String) :
    (solution.checkpoint id createdAt machine).iterations.toNat = solution.iterations :=
  UInt64.toNat_ofNat_of_lt' bound

namespace Machine

/-- The passes that the first runs of a chain made. -/
def passesMade (runs : List (Solution V P)) (count : Nat) : Nat :=
  ((runs.take count).map (·.iterations)).sum

theorem returns_of_resumeAll {solution : Solution V P} {rest : List Resumption}
    {runs : List (Solution V P)} (resumed : machine.resumeAll solution rest = .ok runs) :
    ∀ run ∈ runs, ∃ solver : Solver, solver.Returns machine run := by
  induction rest generalizing solution runs with
  | nil =>
      obtain rfl : [] = runs := Except.ok.inj resumed
      simp
  | cons resumption rest ih =>
      simp only [resumeAll, bind_eq_ok, pure_eq_ok] at resumed
      obtain ⟨next, ended, later, resumed, rfl⟩ := resumed
      exact List.forall_mem_cons.mpr ⟨⟨_, .resumed _ ended⟩, ih resumed⟩

theorem returns_of_solveInParts {first : Solver} {rest : List Resumption}
    {runs : List (Solution V P)} (solved : machine.solveInParts first rest = .ok runs) :
    ∀ run ∈ runs, ∃ solver : Solver, solver.Returns machine run := by
  simp only [solveInParts, bind_eq_ok, pure_eq_ok] at solved
  obtain ⟨solution, solved, later, resumed, rfl⟩ := solved
  exact List.forall_mem_cons.mpr ⟨⟨first, .solved solved⟩, returns_of_resumeAll resumed⟩

omit [BEq V] [BEq P] in
theorem passesMade_succ {runs : List (Solution V P)} {index : Nat}
    (bound : index < runs.length) :
    passesMade runs (index + 1) = passesMade runs index + runs[index].iterations := by
  rw [passesMade, passesMade, List.take_succ_eq_append_getElem bound, List.map_append,
    List.sum_append, List.map_singleton, List.sum_singleton]

omit [BEq V] [BEq P] in
theorem passesMade_eq_zero_iff {runs : List (Solution V P)}
    (moved : ∀ run ∈ runs, 0 < run.iterations) {index : Nat} (bound : index < runs.length) :
    passesMade runs index = 0 ↔ index = 0 := by
  cases index with
  | zero => simp [passesMade]
  | succ earlier =>
      have made := passesMade_succ (Nat.lt_of_succ_lt bound)
      have := moved _ (List.getElem_mem (Nat.lt_of_succ_lt bound))
      omega

/-- A checkpoint in a chain of runs counts the passes of the last run and misses those of
the runs before. It counts all passes of the chain only if no run was resumed before. -/
theorem checkpoint_counts_last_run {first : Solver} {rest : List Resumption}
    {runs : List (Solution V P)} (solved : machine.solveInParts first rest = .ok runs)
    {index : Nat} (bound : index < runs.length) (id : String) (createdAt : Instant) :
    let counted := (runs[index].checkpoint id createdAt machine.name).iterations.toNat
    counted = runs[index].iterations ∧
      passesMade runs (index + 1) = passesMade runs index + counted ∧
      (counted = passesMade runs (index + 1) ↔ index = 0) := by
  have returned := returns_of_solveInParts solved
  have moved : ∀ run ∈ runs, 0 < run.iterations := by
    intro run member
    obtain ⟨solver, isRun⟩ := returned run member
    exact isRun.iterations_bounds.1
  obtain ⟨solver, isRun⟩ := returned _ (List.getElem_mem bound)
  have counted := Solution.iterations_checkpoint isRun.iterations_bounds.2 id createdAt
    machine.name
  have total := passesMade_succ bound
  have missed := passesMade_eq_zero_iff moved bound
  simp only [counted]
  exact ⟨trivial, total, by omega⟩

/-- The ladder is cut after two and after five passes here and comes to rest in the sixth.
The last checkpoint counts one pass and the first one all there were. -/
theorem ladder_checkpoints_count : ∃ runs,
    Samples.ladder.solveInParts Samples.twoPasses
        [⟨Samples.threePasses, "two", Samples.earlyMorning⟩,
          ⟨Samples.twoPasses, "five", Samples.earlyMorning⟩] = .ok runs ∧
      (∃ first ∈ runs[0]?,
        (first.checkpoint "two" Samples.earlyMorning "ladder").iterations.toNat =
          passesMade runs 1) ∧
      ∃ last ∈ runs[2]?,
        (last.checkpoint "six" Samples.earlyMorning "ladder").iterations.toNat = 1 ∧
          passesMade runs 3 = 6 := by
  obtain ⟨runs, solved, counts⟩ : ∃ runs,
      Samples.ladder.solveInParts Samples.twoPasses
          [⟨Samples.threePasses, "two", Samples.earlyMorning⟩,
            ⟨Samples.twoPasses, "five", Samples.earlyMorning⟩] = .ok runs ∧
        runs.map (·.iterations) = [2, 3, 1] :=
    exists_ok_of_any (by decide +kernel)
  have three : runs.length = 3 := by simpa using congrArg List.length counts
  have total : passesMade runs 3 = 6 := by
    rw [passesMade, ← three, List.take_length, counts]
    rfl
  have lastOne : runs[2].iterations = 1 := by
    have read := List.getElem_of_eq counts (by simp [three] : 2 < _)
    rwa [List.getElem_map] at read
  obtain ⟨-, -, onlyFirst⟩ :=
    checkpoint_counts_last_run solved (by omega : 0 < runs.length) "two" Samples.earlyMorning
  obtain ⟨counted, -⟩ :=
    checkpoint_counts_last_run solved (by omega : 2 < runs.length) "six" Samples.earlyMorning
  exact ⟨runs, solved, ⟨_, List.getElem?_eq_getElem _, onlyFirst.mpr rfl⟩,
    ⟨_, List.getElem?_eq_getElem _, counted.trans lastOne, total⟩⟩

/-- After two passes and three more, the second checkpoint of the ladder counts three. -/
theorem ladder_loses_count : ¬ ∀ first rest runs,
    Samples.ladder.solveInParts first rest = .ok runs →
      ∀ (index : Nat) (bound : index < runs.length) (id : String) (createdAt : Instant),
        (runs[index].checkpoint id createdAt "ladder").iterations.toNat =
          passesMade runs (index + 1) := by
  intro keepsCount
  obtain ⟨runs, solved, counts, total⟩ : ∃ runs,
      Samples.ladder.solveInParts Samples.twoPasses
          [⟨Samples.threePasses, "two", Samples.earlyMorning⟩] = .ok runs ∧
        runs.map (fun run =>
          (run.checkpoint "five" Samples.earlyMorning "ladder").iterations.toNat) = [2, 3] ∧
        passesMade runs 2 = 5 :=
    exists_ok_of_any (by decide +kernel)
  have two : runs.length = 2 := by simpa using congrArg List.length counts
  have second : (runs[1].checkpoint "five" Samples.earlyMorning "ladder").iterations.toNat =
      3 := by
    have read := List.getElem_of_eq counts (by simp [two] : 1 < _)
    rwa [List.getElem_map] at read
  have claimed := keepsCount _ _ runs solved 1 (by omega) "five" Samples.earlyMorning
  rw [second, total] at claimed
  omega

end Machine
end ReactiveReach
