import Mathlib.Logic.Equiv.Basic
import ReactiveReach.Proofs.Renaming
import ReactiveReach.Samples.Term

/-!
# Runs under other names

Of two machines that differ only in their names, one run is the other one under the new
names, whatever the renaming does to the order of ids: the same failure, or the same
values, zones and records. The specified pass (`Machine.specifiedPass`) lists states and
transitions and never an id, so the comparison is made there, pass by pass.
-/

namespace ReactiveReach.Machine

variable {V P E α : Type} {rename : StateId → StateId} {first second : Machine V P E}

/-- `others` has under the new name of each state what `entries` has under the old one. -/
def Along (machine : Machine V P E) (rename : StateId → StateId)
    (entries others : Assignment α) : Prop :=
  ∀ id, machine.knows id = true → others (rename id) = entries id

structure PassAlong (machine : Machine V P E) (rename : StateId → StateId)
    (pass other : SpecifiedPass V P) : Prop where
  zones : machine.Along rename pass.zones other.zones
  after : machine.Along rename pass.after other.after
  changed : other.changed = pass.changed.map rename

theorem rel_getLast? {β : Type} {related : α → β → Prop} {members : List α} {images : List β}
    (each : List.Forall₂ related members images) :
    Option.Rel related members.getLast? images.getLast? := by
  induction each with
  | nil => exact .none
  | cons first rest ih =>
      cases rest with
      | nil => exact .some first
      | cons next rest =>
          rw [List.getLast?_cons_cons, List.getLast?_cons_cons]
          exact ih

/-- Listing what an operation gives for each state, under the new names. -/
theorem mapM_renamed {states : List State} {operation image : State → Except E α}
    (same : ∀ state ∈ states, image (state.renamed rename) = operation state) :
    (states.map (·.renamed rename)).mapM (fun state => (state.id, ·) <$> image state) =
      (·.map (Prod.map rename id)) <$>
        states.mapM fun state => (state.id, ·) <$> operation state := by
  rw [List.mapM_map, ← mapM_map_result]
  refine mapM_congr fun state member => ?_
  simp only [Function.comp_apply, same state member]
  cases operation state <;> rfl

theorem known_of_mapM {states : List State} (listed : ∀ state ∈ states, state ∈ first.states)
    {operation : State → Except E α} {entries : List (StateId × α)}
    (mapped : states.mapM (fun state => (state.id, ·) <$> operation state) = .ok entries) :
    ∀ entry ∈ entries, first.knows entry.1 = true := by
  intro entry member
  obtain ⟨state, stateMem, given⟩ := (mem_iff_of_mapM_eq_ok mapped).mp member
  obtain ⟨value, -, rfl⟩ := map_eq_ok.mp given
  exact knows_iff.mpr ⟨state, listed state stateMem, rfl⟩

theorem history_renamed {passes images : List (SpecifiedPass V P)}
    (runAlong : List.Forall₂ (first.PassAlong rename) passes images) :
    History.ofList (images.mapIdx fun earlier pass => ⟨earlier + 1, pass.changed⟩) =
      (History.ofList
        (passes.mapIdx fun earlier pass => ⟨earlier + 1, pass.changed⟩)).renamed rename := by
  rw [History.renamed, History.toList_ofList]
  refine congrArg History.ofList ?_
  refine List.ext_getElem (by simp [runAlong.length_eq]) fun index bound inside => ?_
  simp only [List.length_mapIdx, List.length_map] at bound inside
  have passAlong := runAlong.get inside bound
  simp only [List.get_eq_getElem] at passAlong
  simp [PassRecord.renamed, passAlong.changed]

namespace Renames

theorem knows_inj (renames : first.Renames rename second) {id other : StateId}
    (known : first.knows id = true) (otherKnown : first.knows other = true) :
    rename id = rename other ↔ id = other :=
  renames.injective.eq_iff (.inl known) (.inl otherKnown)

theorem recomputed_eq (renames : first.Renames rename second) :
    second.recomputed = first.recomputed.map (·.renamed rename) := by
  rw [recomputed, renames.states, List.filter_map]
  rfl

theorem lookup_renamed (renames : first.Renames rename second)
    {entries : List (StateId × α)} (known : ∀ entry ∈ entries, first.knows entry.1 = true)
    {key : StateId} (keyKnown : first.knows key = true) :
    (entries.map (Prod.map rename id)).lookup (rename key) = entries.lookup key := by
  induction entries with
  | nil => rfl
  | cons entry entries ih =>
      rw [List.forall_mem_cons] at known
      obtain ⟨other, value⟩ := entry
      have same : (rename key == rename other) = (key == other) := by
        rw [Bool.eq_iff_iff, beq_iff_eq, beq_iff_eq]
        exact renames.knows_inj keyKnown known.1
      simp only [List.map_cons, Prod.map_apply, List.lookup_cons, same, ih known.2]
      rfl

theorem along_override (renames : first.Renames rename second) {entries others : Assignment α}
    (along : first.Along rename entries others) {updates : List (StateId × α)}
    (known : ∀ update ∈ updates, first.knows update.1 = true) :
    first.Along rename (entries.override updates)
      (others.override (updates.map (Prod.map rename id))) := by
  intro id idKnown
  rw [Assignment.override, Assignment.override, renames.lookup_renamed known idKnown,
    along id idKnown]

theorem tabulate_eq (renames : first.Renames rename second) (wellFormed : first.WellFormed)
    {entries others : Assignment α} (along : first.Along rename entries others) :
    second.tabulate others = StateMap.renamed rename (first.tabulate entries) := by
  -- The tables are in different orders, so they are compared one id at a time. An id of
  -- `second` is the new name of some state, and any other is the new name of none.
  refine (eq_tabulate (renames.wellFormed_iff.mpr wellFormed) fun id => ?_).symm
  split
  · rename_i known
    rw [knows_iff, renames.states] at known
    obtain ⟨image, imageMem, rfl⟩ := known
    obtain ⟨state, member, rfl⟩ := List.mem_map.mp imageMem
    have stateKnown : first.knows state.id = true := knows_iff.mpr ⟨state, member, rfl⟩
    have apart : Set.InjOn rename { key | key ∈ first.tabulate entries ∨ key = state.id } := by
      refine renames.injective.mono ?_
      rintro key (listed | rfl)
      · exact .inl ((mem_tabulate wellFormed).mp listed)
      · exact .inl stateKnown
    show (StateMap.renamed rename _)[rename state.id]? = some (others (rename state.id))
    rw [StateMap.getElem?_renamed apart, getElem?_tabulate_id wellFormed _ member,
      along _ stateKnown]
  · rename_i unknown
    refine StateMap.getElem?_renamed_eq_none fun key listed same => unknown ?_
    have known := (mem_tabulate wellFormed).mp listed
    rw [← same, renames.knows_eq (.inl known), known]

section Pass

variable {values others : Assignment V}

theorem specifiedZones_alike (renames : first.Renames rename second)
    (along : first.Along rename values others) :
    Alike (first.Along rename) (first.specifiedZones values) (second.specifiedZones others) := by
  have exits : ∀ state ∈ first.states,
      second.exitsFor (state.renamed rename) (others (state.renamed rename).id) =
        first.exitsFor state (values state.id) := by
    intro state member
    have known : first.knows state.id = true := knows_iff.mpr ⟨state, member, rfl⟩
    show second.exitsFor _ (others (rename state.id)) = _
    rw [along state.id known, exitsFor, exitsFor, renames.exits state member]
    rfl
  rw [specifiedZones, specifiedZones, renames.states, mapM_renamed exits]
  refine (alike_map _ fun entries mapped => ?_).bind fun entries images relation => .ok relation
  have known := known_of_mapM (fun _ => id) mapped
  exact renames.along_override (fun _ _ => rfl) known

/-- A transition finds its source under the new name. -/
theorem sourceOf_eq (renames : first.Renames rename second) (wellFormed : first.WellFormed)
    {transition : Transition P} (member : transition ∈ first.transitions) :
    second.sourceOf (transition.renamed rename) =
      (first.sourceOf transition).renamed rename := by
  obtain ⟨source, sourceMem, sourceId, lookup⟩ := wellFormed.exists_source member
  have found : second.state? (rename transition.source) = some (source.renamed rename) := by
    rw [(renames.wellFormed_iff.mpr wellFormed).state?_eq_some_iff, renames.states]
    exact ⟨List.mem_map_of_mem sourceMem, congrArg rename sourceId⟩
  show (second.state? (rename transition.source)).getD _ = _
  rw [found, sourceOf, lookup]
  rfl

theorem filter_renamed [BEq V] (along : first.Along rename values others)
    {entries : List (StateId × V)} (known : ∀ entry ∈ entries, first.knows entry.1 = true) :
    (entries.map (Prod.map rename id)).filter (fun image => image.2 != others image.1) =
      (entries.filter fun entry => entry.2 != values entry.1).map (Prod.map rename id) := by
  rw [List.filter_map]
  refine congrArg _ (List.filter_congr fun entry listed => ?_)
  show (entry.2 != others (rename entry.1)) = (entry.2 != values entry.1)
  rw [along _ (known entry listed)]

/-- The transitions into a state stay where they are among all others. -/
theorem filter_targets_eq (renames : first.Renames rename second) {id : StateId}
    (known : first.knows id = true) :
    second.transitions.filter (·.targets (rename id)) =
      (first.transitions.filter (·.targets id)).map (·.renamed rename) := by
  rw [renames.transitions, List.filter_map]
  refine congrArg _ (List.filter_congr fun transition member => ?_)
  rw [Bool.eq_iff_iff, Function.comp_apply, Transition.targets, Transition.targets, beq_iff_eq,
    beq_iff_eq]
  exact renames.injective.eq_iff (target_mentioned member) (.inl known)

variable [BEq P]

theorem specifiedJoin_eq (renames : first.Renames rename second) (wellFormed : first.WellFormed)
    (along : first.Along rename values others)
    {zones exits : Assignment (List (ExitZone P))} (alongZones : first.Along rename zones exits)
    {id : StateId} (known : first.knows id = true) :
    second.specifiedJoin others exits (rename id) = first.specifiedJoin values zones id := by
  rw [specifiedJoin, specifiedJoin, Assembly.joinEach, Assembly.joinEach,
    renames.filter_targets_eq known, List.foldlM_map, renames.assembly]
  refine foldlM_congr fun transition into joined => ?_
  have member := List.mem_of_mem_filter into
  have sourceKnown := wellFormed.sources_known transition member
  show (((transition.renamed rename).contribute first.assembly
    (second.sourceOf (transition.renamed rename)) (others (rename transition.source))
    (exits (rename transition.source))) >>= _) = _
  rw [renames.sourceOf_eq wellFormed member, along _ sourceKnown, alongZones _ sourceKnown]
  rfl

variable [BEq V]

/-- A pass under other names. States and transitions are met in the same order, so the
first failure is the same. -/
theorem specifiedPass_alike (renames : first.Renames rename second)
    (wellFormed : first.WellFormed) (along : first.Along rename values others) :
    Alike (first.PassAlong rename) (first.specifiedPass values) (second.specifiedPass others) := by
  rw [specifiedPass, specifiedPass]
  refine (renames.specifiedZones_alike along).bind fun zones exits alongZones => ?_
  have joins : ∀ state ∈ first.recomputed,
      second.specifiedJoin others exits (state.renamed rename).id =
        first.specifiedJoin values zones state.id := by
    intro state member
    exact renames.specifiedJoin_eq wellFormed along alongZones
      (knows_iff.mpr ⟨state, List.mem_of_mem_filter member, rfl⟩)
  rw [renames.recomputed_eq, mapM_renamed joins]
  refine (alike_map _ fun entries mapped => ?_).bind fun entries images relation => .ok relation
  have known := known_of_mapM (fun state member => List.mem_of_mem_filter member) mapped
  have updates := filter_renamed along known
  refine ⟨alongZones, ?_, ?_⟩
  · show first.Along rename
      (values.override (entries.filter fun entry => entry.2 != values entry.1))
      (others.override ((entries.map (Prod.map rename id)).filter fun image =>
        image.2 != others image.1))
    rw [updates]
    exact renames.along_override along fun update listed =>
      known update (List.mem_of_mem_filter listed)
  · show ((entries.map (Prod.map rename id)).filter fun image =>
        image.2 != others image.1).map (·.1) =
      ((entries.filter fun entry => entry.2 != values entry.1).map (·.1)).map rename
    rw [updates, List.map_map, List.map_map]
    rfl

theorem specifiedRun_alike (renames : first.Renames rename second)
    (wellFormed : first.WellFormed) (cap : Nat) (along : first.Along rename values others) :
    Alike (List.Forall₂ (first.PassAlong rename)) (first.specifiedRun cap values)
      (second.specifiedRun cap others) := by
  induction cap generalizing values others with
  | zero => exact .ok .nil
  | succ cap ih =>
      rw [specifiedRun, specifiedRun]
      refine (renames.specifiedPass_alike wellFormed along).bind fun pass image passAlong => ?_
      have settles : image.changed.isEmpty = pass.changed.isEmpty := by
        rw [passAlong.changed, List.isEmpty_map]
      -- Both runs come to rest at the same pass, since they change equally many states.
      rw [settles]
      split
      · exact .ok (.cons passAlong .nil)
      · refine (ih passAlong.after).bind fun later images laterAlong => ?_
        exact .ok (.cons passAlong laterAlong)

omit [BEq V] [BEq P] in
theorem outcomeOf_renamed (renames : first.Renames rename second)
    (wellFormed : first.WellFormed) (cap : Nat) (along : first.Along rename values others)
    {passes images : List (SpecifiedPass V P)}
    (runAlong : List.Forall₂ (first.PassAlong rename) passes images) :
    second.outcomeOf cap others images =
      (first.outcomeOf cap values passes).renamed rename := by
  have history := history_renamed runAlong
  have last := rel_getLast? runAlong
  simp only [outcomeOf, Solution.renamed, Solution.mk.injEq]
  generalize passes.getLast? = final, images.getLast? = finalImage at last ⊢
  cases last with
  | none =>
      exact ⟨renames.tabulate_eq wellFormed along, StateMap.renamed_empty.symm,
        runAlong.length_eq.symm, rfl, history⟩
  | some passAlong =>
      refine ⟨renames.tabulate_eq wellFormed passAlong.after,
        renames.tabulate_eq wellFormed passAlong.zones, runAlong.length_eq.symm, ?_, history⟩
      simp only [Option.any_some, passAlong.changed, List.isEmpty_map]

omit [BEq V] [BEq P] in
theorem mem_seeds_iff (renames : first.Renames rename second) {id : StateId}
    (known : first.knows id = true) : rename id ∈ second.seeds ↔ id ∈ first.seeds := by
  rw [renames.seeds_eq, List.mem_map]
  constructor
  · rintro ⟨seed, listed, same⟩
    obtain ⟨state, stateMem, rfl⟩ := List.mem_map.mp listed
    have seedKnown : first.knows state.id = true :=
      knows_iff.mpr ⟨state, List.mem_of_mem_filter stateMem, rfl⟩
    rwa [← (renames.knows_inj seedKnown known).mp same]
  · exact fun listed => ⟨id, listed, rfl⟩

/-- What is specified for a machine is specified for it under other names. -/
theorem specifiedOutcome_renamed (renames : first.Renames rename second)
    (wellFormed : first.WellFormed) (cap : Nat) (along : first.Along rename values others) :
    second.specifiedOutcome cap others =
      Solution.renamed rename <$> first.specifiedOutcome cap values := by
  rw [specifiedOutcome, specifiedOutcome, renames.assembly]
  cases first.assembly.initial with
  | error cause => rfl
  | ok initial =>
      have begun : first.Along rename
          (fun id => if id ∈ first.seeds then initial else values id)
          (fun id => if id ∈ second.seeds then initial else others id) := by
        intro id known
        simp only [renames.mem_seeds_iff known, along id known]
      refine Alike.eq_map ((renames.specifiedRun_alike wellFormed cap begun).bind ?_)
      intro passes images runAlong
      exact .ok (renames.outcomeOf_renamed wellFormed cap begun runAlong)

end Pass

theorem along_assigned (renames : first.Renames rename second) {values : StateMap V}
    (covers : first.Covers values) :
    first.Along rename (first.assigned values)
      (second.assigned (StateMap.renamed rename values)) := by
  intro id known
  have apart : Set.InjOn rename { key | key ∈ values ∨ key = id } := by
    refine renames.injective.mono ?_
    rintro key (present | rfl)
    · exact .inl ((covers key).mp present)
    · exact .inl known
  rw [assigned, assigned, Std.ExtTreeMap.getD_eq_getD_getElem?,
    Std.ExtTreeMap.getD_eq_getD_getElem?, StateMap.getElem?_renamed apart, renames.assembly]

theorem covers_renamed (renames : first.Renames rename second) (wellFormed : first.WellFormed)
    {values : StateMap V} (covers : first.Covers values) :
    second.Covers (StateMap.renamed rename values) := by
  have table := renames.tabulate_eq wellFormed (renames.along_assigned covers)
  rw [covers.tabulate_assigned wellFormed] at table
  intro id
  rw [← table, mem_tabulate (renames.wellFormed_iff.mpr wellFormed)]

theorem checkedSeed_of_not_wellFormed (renames : first.Renames rename second)
    (refused : ¬first.WellFormed) :
    second.checkedSeed =
      .error (.malformed first.name (first.violations.map (·.renamed rename))) := by
  rw [Machine.checkedSeed_of_not_wellFormed (mt renames.wellFormed_iff.mp refused), renames.name,
    renames.violations_eq]

variable [BEq V] [BEq P]

theorem solve_renamed (renames : first.Renames rename second) (solver : Solver) :
    (solver.solve second).result =
      (Solution.renamed rename <$> (solver.solve first).result).mapError
        (·.renamed rename) := by
  by_cases wellFormed : first.WellFormed
  · have along : first.Along rename (fun _ => first.assembly.bottom)
        (fun _ => second.assembly.bottom) := fun _ _ => congrArg _ renames.assembly
    rw [solve_as_specified wellFormed, solve_as_specified (renames.wellFormed_iff.mpr wellFormed),
      renames.specifiedOutcome_renamed wellFormed solver.cap along]
    cases first.specifiedOutcome solver.cap fun _ => first.assembly.bottom <;> rfl
  · simp only [result_solve, startValues, Machine.checkedSeed_of_not_wellFormed wellFormed,
      renames.checkedSeed_of_not_wellFormed wellFormed]
    rfl

theorem verify_renamed (renames : first.Renames rename second) {values : StateMap V}
    (covers : first.Covers values) :
    (second.verify (StateMap.renamed rename values)).result =
      (List.map rename <$> (first.verify values).result).mapError (·.renamed rename) := by
  by_cases wellFormed : first.WellFormed
  · have changes := (renames.specifiedPass_alike wellFormed (renames.along_assigned covers)).map_eq
      fun _ _ passAlong => passAlong.changed
    rw [verify_as_specified wellFormed covers,
      verify_as_specified (renames.wellFormed_iff.mpr wellFormed)
        (renames.covers_renamed wellFormed covers), changes]
    cases first.specifiedPass (first.assigned values) <;> rfl
  · simp only [verify, Logged.result_bind, Logged.result_ofExcept,
      Machine.checkedSeed_of_not_wellFormed wellFormed,
      renames.checkedSeed_of_not_wellFormed wellFormed]
    rfl

end Renames

section Runs

variable [BEq V] [BEq P]

/-- A machine under other names is solved and verified as the machine is, with all ids
replaced and with the same failures, however the names are ordered. -/
theorem runs_as_renamed (renames : first.Renames rename second) :
    (∀ solver : Solver, (solver.solve second).result =
      (Solution.renamed rename <$> (solver.solve first).result).mapError
        (·.renamed rename)) ∧
    ∀ values, first.Covers values →
      (second.verify (StateMap.renamed rename values)).result =
        (List.map rename <$> (first.verify values).result).mapError (·.renamed rename) :=
  ⟨renames.solve_renamed, fun _ => renames.verify_renamed⟩

end Runs

theorem turnedFork_renames :
    Samples.fork.Renames (Equiv.swap "A" "Seed") Samples.turnedFork where
  injective := (Equiv.swap "A" "Seed").injective.injOn
  name := rfl
  assembly := rfl
  states := by decide
  transitions := by decide
  exits := by
    intro state member value
    simp only [Samples.fork, List.mem_cons, List.not_mem_nil, or_false] at member
    rcases member with rfl | rfl | rfl <;> rfl

/-- When the seed and the last state of the fork trade ids, the ids come in the opposite
order. The term at the first state still spells what comes through the last state before
what comes from the seed, and changes are listed in the old order. -/
theorem fork_turned : ∃ solution changed,
    (Solver.standard.solve Samples.fork).result = .ok solution ∧
      solution.history.toList.map (·.changed) = [["B", "A"], ["B"], []] ∧
      (Solver.standard.solve Samples.turnedFork).result =
        .ok (solution.renamed (Equiv.swap "A" "Seed")) ∧
      (Samples.fork.verify Samples.fork.bottomValues).result = .ok changed ∧
      (Samples.turnedFork.verify (StateMap.renamed (Equiv.swap "A" "Seed")
        Samples.fork.bottomValues)).result = .ok (changed.map (Equiv.swap "A" "Seed")) := by
  obtain ⟨solution, solved, history⟩ : ∃ solution,
      (Solver.standard.solve Samples.fork).result = .ok solution ∧
        solution.history.toList.map (·.changed) = [["B", "A"], ["B"], []] :=
    exists_ok_of_any (by decide +kernel)
  obtain ⟨changed, verified⟩ : ∃ changed,
      (Samples.fork.verify Samples.fork.bottomValues).result = .ok changed :=
    exists_ok_of_isSome (by decide +kernel)
  obtain ⟨solves, verifies⟩ := runs_as_renamed turnedFork_renames
  have turned := solves Solver.standard
  have turnedVerified := verifies _ fun _ => mem_bottomValues
  rw [solved] at turned
  rw [verified] at turnedVerified
  exact ⟨solution, changed, solved, history, turned, verified, turnedVerified⟩

end ReactiveReach.Machine
