import ReactiveReach.Proofs.FixedPoint

/-!
# Passes and runs as specified

What a run computes can be said without grouped transitions, maps and lookups that
fail. Values are then a function of ids, a pass is one rule for the zones and one
for the values, and a run is the list of its passes. The rule fails with the first
operation that fails: zones come before values, states in the order of the machine,
and transitions into a state in the order of the machine too.

Solving, resuming and verifying do exactly that, failures included. The proof goes
from an assignment to its table (`Machine.tabulate`): a pass over the table of some
values is the table of the specified pass over the values, and by induction on the
passes that are left a run is the table of the specified run.
-/

namespace ReactiveReach

variable {V P E α : Type}

/-- An entry for every id, whether or not a state has it. -/
abbrev Assignment (α : Type) := StateId → α

/-- The listed entries, and those of `others` where none is listed. -/
def Assignment.override (others : Assignment α) (entries : List (StateId × α)) :
    Assignment α :=
  fun id => (entries.lookup id).getD (others id)

/-- A pass: the values it begins with, their zones, the values it ends with, and the
states where the two differ. -/
structure SpecifiedPass (V P : Type) where
  before : Assignment V
  zones : Assignment (List (ExitZone P))
  after : Assignment V
  changed : List StateId

namespace Machine

section Rule

def specifiedZones (machine : Machine V P E) (values : Assignment V) :
    Except E (Assignment (List (ExitZone P))) := do
  let zones ← machine.states.mapM fun state =>
    (state.id, ·) <$> machine.exitsFor state (values state.id)
  return Assignment.override (fun _ => []) zones

def sourceOf (machine : Machine V P E) (transition : Transition P) : State :=
  (machine.state? transition.source).getD (.ordinary transition.source)

/-- What the transitions into a state give it, joined from bottom on. -/
def specifiedJoin [BEq P] (machine : Machine V P E) (values : Assignment V)
    (zones : Assignment (List (ExitZone P))) (id : StateId) : Except E V :=
  machine.assembly.joinEach
    (fun transition => transition.contribute machine.assembly (machine.sourceOf transition)
      (values transition.source) (zones transition.source))
    (machine.transitions.filter (·.targets id))

def specifiedPass [BEq V] [BEq P] (machine : Machine V P E) (values : Assignment V) :
    Except E (SpecifiedPass V P) := do
  let zones ← machine.specifiedZones values
  let joined ← machine.recomputed.mapM fun state =>
    (state.id, ·) <$> machine.specifiedJoin values zones state.id
  let updates := joined.filter fun (id, value) => value != values id
  return ⟨values, zones, Assignment.override values updates, updates.map (·.1)⟩

/-- The passes from some values on, until one changes nothing or none is left. -/
def specifiedRun [BEq V] [BEq P] (machine : Machine V P E) :
    Nat → Assignment V → Except E (List (SpecifiedPass V P))
  | 0, _ => .ok []
  | left + 1, values => do
    let pass ← machine.specifiedPass values
    if pass.changed.isEmpty then return [pass]
    else return pass :: (← machine.specifiedRun left pass.after)

def tabulate (machine : Machine V P E) (entries : Assignment α) : StateMap α :=
  .ofList (machine.states.map fun state => (state.id, entries state.id))

/-- What a pass leaves behind, as tables. -/
def passOutcomeOf (machine : Machine V P E) (pass : SpecifiedPass V P) : PassOutcome V P :=
  ⟨machine.tabulate pass.after, machine.tabulate pass.zones, pass.changed⟩

/-- The entries of a map, and bottom where it has none. -/
def assigned (machine : Machine V P E) (values : StateMap V) : Assignment V :=
  fun id => values.getD id machine.assembly.bottom

/-- The outcome of a run of these passes that began with `start`. -/
def outcomeOf (machine : Machine V P E) (cap : Nat) (start : Assignment V)
    (passes : List (SpecifiedPass V P)) : Solution V P where
  semantics := machine.tabulate ((passes.getLast?.map (·.after)).getD start)
  zones := (passes.getLast?.map fun last => machine.tabulate last.zones).getD ∅
  iterations := passes.length
  convergence := if passes.getLast?.any (·.changed.isEmpty) then .converged else .capReached cap
  history := .ofList (passes.mapIdx fun earlier pass => ⟨earlier + 1, pass.changed⟩)

/-- The outcome of a run from some values, after the seed got the initial value. -/
def specifiedOutcome [BEq V] [BEq P] (machine : Machine V P E) (cap : Nat)
    (values : Assignment V) : Except E (Solution V P) := do
  let initial ← machine.assembly.initial
  let start : Assignment V := fun id => if id ∈ machine.seeds then initial else values id
  return machine.outcomeOf cap start (← machine.specifiedRun cap start)

end Rule

variable {machine : Machine V P E}

theorem getElem?_tabulate (wellFormed : machine.WellFormed) (entries : Assignment α)
    (id : StateId) :
    (machine.tabulate entries)[id]? =
      if machine.knows id = true then some (entries id) else none := by
  rw [tabulate, wellFormed.getElem?_ofList fun state => entries state.id]
  cases lookup : machine.state? id with
  | some state =>
      obtain ⟨member, sameId⟩ := wellFormed.state?_eq_some_iff.mp lookup
      have known : machine.knows id = true := knows_iff.mpr ⟨state, member, sameId⟩
      rw [Option.map_some, if_pos known, sameId]
  | none =>
      have unknown : ¬ machine.knows id = true := by
        simpa [state?, knows] using lookup
      rw [Option.map_none, if_neg unknown]

theorem getElem?_tabulate_id (wellFormed : machine.WellFormed) (entries : Assignment α)
    {state : State} (member : state ∈ machine.states) :
    (machine.tabulate entries)[state.id]? = some (entries state.id) := by
  have known : machine.knows state.id = true := knows_iff.mpr ⟨state, member, rfl⟩
  rw [getElem?_tabulate wellFormed, if_pos known]

theorem mem_tabulate (wellFormed : machine.WellFormed) {entries : Assignment α} {id : StateId} :
    id ∈ machine.tabulate entries ↔ machine.knows id = true := by
  rw [Std.ExtTreeMap.mem_iff_isSome_getElem?, getElem?_tabulate wellFormed]
  split <;> simp_all

theorem eq_tabulate (wellFormed : machine.WellFormed) {map : StateMap α}
    {entries : Assignment α}
    (same : ∀ id, map[id]? = if machine.knows id = true then some (entries id) else none) :
    map = machine.tabulate entries := by
  apply Std.ExtTreeMap.ext_getElem?
  intro id
  rw [same, getElem?_tabulate wellFormed]

theorem Covers.tabulate_assigned (wellFormed : machine.WellFormed) {values : StateMap V}
    (covers : machine.Covers values) : machine.tabulate (machine.assigned values) = values := by
  refine (eq_tabulate wellFormed ?_).symm
  intro id
  split
  · rename_i known
    have present : id ∈ values := (covers id).mpr known
    rw [assigned, Std.ExtTreeMap.getD_eq_getD_getElem?,
      Std.ExtTreeMap.getElem?_eq_some_getElem present, Option.getD_some]
  · rename_i unknown
    exact Std.ExtTreeMap.getElem?_eq_none fun present => unknown ((covers id).mp present)

theorem getElem?_foldl_insert_entries {entries : List (StateId × α)}
    (distinct : (entries.map (·.1)).Nodup) (start : StateMap α) (id : StateId) :
    (entries.foldl (fun map (id, entry) => map.insert id entry) start)[id]? =
      (entries.lookup id).or start[id]? := by
  induction entries generalizing start with
  | nil => rfl
  | cons entry entries ih =>
      obtain ⟨first, value⟩ := entry
      rw [List.map_cons, List.nodup_cons] at distinct
      rw [List.foldl_cons, ih distinct.2, List.lookup_cons, Std.ExtTreeMap.getElem?_insert]
      by_cases same : id = first
      · subst same
        have later : entries.lookup id = none := by
          rw [List.lookup_eq_none_iff]
          intro entry member
          have : entry.1 ≠ id := by
            rintro rfl
            exact distinct.1 (List.mem_map_of_mem (f := (·.1)) member)
          simpa using this.symm
        simp [later]
      · have apart : ¬ first = id := fun equal => same equal.symm
        rw [beq_false_of_ne same]
        simp [apart]

theorem foldl_insert_tabulate (wellFormed : machine.WellFormed)
    {entries : List (StateId × α)} (distinct : (entries.map (·.1)).Nodup)
    (known : ∀ entry ∈ entries, machine.knows entry.1 = true) (others : Assignment α) :
    entries.foldl (fun map (id, entry) => map.insert id entry) (machine.tabulate others) =
      machine.tabulate (others.override entries) := by
  apply eq_tabulate wellFormed
  intro id
  rw [getElem?_foldl_insert_entries distinct, getElem?_tabulate wellFormed, Assignment.override]
  cases stored : entries.lookup id with
  | none => rfl
  | some entry =>
      obtain ⟨before, after, rfl, -⟩ := List.lookup_eq_some_iff.mp stored
      have knownId : machine.knows id = true := known (id, entry) (by simp)
      simp [knownId]

theorem foldlM_insert_eq_map {ε : Type} (operation : State → Except ε α)
    (states : List State) (start : StateMap α) :
    states.foldlM (fun map state => do return map.insert state.id (← operation state)) start =
      (·.foldl (fun map (id, entry) => map.insert id entry) start) <$>
        states.mapM fun state => (state.id, ·) <$> operation state := by
  induction states generalizing start with
  | nil => rfl
  | cons state states ih =>
      simp only [List.foldlM_cons, List.mapM_cons, map_bind]
      cases operation state with
      | error failure => rfl
      | ok entry => exact ih (start.insert state.id entry)

theorem isSome_lookup_of_ids {entries : List (StateId × α)}
    (ids : entries.map (·.1) = machine.states.map (·.id)) (id : StateId) :
    (entries.lookup id).isSome = true ↔ machine.knows id = true := by
  have listed : id ∈ entries.map (·.1) ↔ id ∈ machine.states.map (·.id) := by rw [ids]
  simp only [List.mem_map] at listed
  rw [List.lookup_isSome_iff, knows_iff, ← listed]
  simp only [beq_iff_eq, @eq_comm _ id]

theorem refreshZones_tabulate (wellFormed : machine.WellFormed) (values : Assignment V) :
    machine.refreshZones (machine.tabulate values) =
      (machine.tabulate <$> machine.specifiedZones values).mapError .operation := by
  have under : ∀ state ∈ machine.states,
      machine.zonesUnder (machine.tabulate values) state =
        (machine.exitsFor state (values state.id)).mapError .operation := by
    intro state member
    have found : (entryOf (machine.tabulate values) state.id : Except (Fault E) V) =
        .ok (values state.id) := entryOf_eq_ok.mpr (getElem?_tabulate_id wellFormed values member)
    unfold zonesUnder exitsFor
    split
    · rfl
    · rw [found]
      rfl
  have collected :
      (machine.states.mapM fun state =>
        (state.id, ·) <$> machine.zonesUnder (machine.tabulate values) state) =
      (machine.states.mapM fun state =>
        (state.id, ·) <$> machine.exitsFor state (values state.id)).mapError .operation := by
    rw [mapError_mapM]
    refine mapM_congr fun state member => ?_
    rw [under state member, mapError_map]
  rw [refreshZones, foldlM_insert_eq_map, collected, specifiedZones]
  cases zones : machine.states.mapM fun state =>
      (state.id, ·) <$> machine.exitsFor state (values state.id) with
  | error cause => rfl
  | ok entries =>
      have ids : entries.map (·.1) = machine.states.map (·.id) :=
        map_eq_of_mapM_eq_ok zones fun state entry given => by
          obtain ⟨exits, -, rfl⟩ := map_eq_ok.mp given
          rfl
      have distinct : (entries.map (·.1)).Nodup := ids ▸ wellFormed.distinct_ids
      refine congrArg Except.ok (eq_tabulate wellFormed fun id => ?_)
      rw [getElem?_foldl_insert_entries distinct, Std.ExtTreeMap.getElem?_empty, Option.or_none,
        Assignment.override]
      have known := isSome_lookup_of_ids ids id
      cases stored : entries.lookup id with
      | some exits => rw [if_pos (known.mp (by rw [stored]; rfl)), Option.getD_some]
      | none => rw [if_neg fun knows => by simpa [stored] using known.mpr knows]

section Passes

variable [BEq P]

/-- What arrives at a state does not depend on how values and zones are kept. -/
theorem joinedAt_tabulate (wellFormed : machine.WellFormed) (values : Assignment V)
    (zones : Assignment (List (ExitZone P))) (id : StateId) :
    machine.joinedAt (machine.tabulate values) (machine.tabulate zones) id =
      (machine.specifiedJoin values zones id).mapError .operation := by
  have gives : ∀ transition ∈ machine.transitions,
      machine.given (machine.tabulate values) (machine.tabulate zones) transition =
        (transition.contribute machine.assembly (machine.sourceOf transition)
          (values transition.source) (zones transition.source)).mapError .operation := by
    intro transition member
    obtain ⟨source, sourceMem, sourceId, lookup⟩ := wellFormed.exists_source member
    have value : (entryOf (machine.tabulate values) source.id : Except (Fault E) V) =
        .ok (values source.id) :=
      entryOf_eq_ok.mpr (getElem?_tabulate_id wellFormed values sourceMem)
    have exits : (entryOf (machine.tabulate zones) source.id :
        Except (Fault E) (List (ExitZone P))) = .ok (zones source.id) :=
      entryOf_eq_ok.mpr (getElem?_tabulate_id wellFormed zones sourceMem)
    rw [sourceId] at value exits
    simp only [given, givenFrom, sourceOf, lookup, Option.getD_some, sourceId, value, exits]
    rfl
  rw [joinedAt, specifiedJoin, Assembly.joinEach, Assembly.joinEach, mapError_foldlM]
  refine foldlM_congr fun transition into joined => ?_
  rw [gives transition (List.mem_of_mem_filter into), mapError_bind]
  rfl

theorem plainRecompute_tabulate (wellFormed : machine.WellFormed) (values : Assignment V)
    (zones : Assignment (List (ExitZone P))) :
    machine.recomputed.mapM
        (machine.plainRecompute (machine.tabulate values) (machine.tabulate zones)) =
      ((·.map fun (id, value) => (id, values id, value)) <$>
        machine.recomputed.mapM fun state =>
          (state.id, ·) <$> machine.specifiedJoin values zones state.id).mapError .operation := by
  rw [← mapM_map_result, mapError_mapM]
  apply mapM_congr
  intro state member
  have found : (entryOf (machine.tabulate values) state.id : Except (Fault E) V) =
      .ok (values state.id) :=
    entryOf_eq_ok.mpr (getElem?_tabulate_id wellFormed values (List.mem_of_mem_filter member))
  rw [plainRecompute, joinedAt_tabulate wellFormed, found]
  cases machine.specifiedJoin values zones state.id <;> rfl

variable [BEq V]

theorem pass_tabulate (wellFormed : machine.WellFormed) (values : Assignment V) :
    (machine.pass machine.incoming (machine.tabulate values)).result =
      (machine.passOutcomeOf <$> machine.specifiedPass values).mapError .operation := by
  rw [result_pass wellFormed, plainPass, specifiedPass, refreshZones_tabulate wellFormed]
  cases machine.specifiedZones values with
  | error cause => rfl
  | ok zones =>
      show (machine.recomputed.mapM
        (machine.plainRecompute (machine.tabulate values) (machine.tabulate zones)) >>= _) = _
      rw [plainRecompute_tabulate wellFormed, ok_bind]
      cases joined : machine.recomputed.mapM fun state =>
          (state.id, ·) <$> machine.specifiedJoin values zones state.id with
      | error cause => rfl
      | ok entries =>
          have ids : entries.map (·.1) = machine.recomputed.map (·.id) :=
            map_eq_of_mapM_eq_ok joined fun state entry given => by
              obtain ⟨value, -, rfl⟩ := map_eq_ok.mp given
              rfl
          let updates := entries.filter fun (id, value) => value != values id
          have inOrder : (updates.map (·.1)).Sublist (machine.recomputed.map (·.id)) :=
            ids ▸ List.filter_sublist.map _
          have known : ∀ update ∈ updates, machine.knows update.1 = true := by
            intro update member
            obtain ⟨state, stateMem, sameId⟩ :=
              List.mem_map.mp (inOrder.subset (List.mem_map_of_mem (f := (·.1)) member))
            exact knows_iff.mpr ⟨state, List.mem_of_mem_filter stateMem, sameId⟩
          have stored := foldl_insert_tabulate wellFormed
            (wellFormed.recomputed_nodup.sublist inOrder) known values
          simp only [Except.mapError, Functor.map, Except.map]
          rw [ok_bind, List.filter_map, List.foldl_map, List.map_map]
          exact congrArg (fun semantics => (.ok ⟨semantics, machine.tabulate zones,
            updates.map (·.1)⟩ : Except (Fault E) (PassOutcome V P))) stored

end Passes

/-- Where a run stands that began with `start` and has made these passes. -/
def progressOf (machine : Machine V P E) (start : Assignment V)
    (passes : List (SpecifiedPass V P)) : Progress V P where
  semantics := machine.tabulate ((passes.getLast?.map (·.after)).getD start)
  zones := (passes.getLast?.map fun last => machine.tabulate last.zones).getD ∅
  passes := passes.length
  history := .ofList (passes.mapIdx fun earlier pass => ⟨earlier + 1, pass.changed⟩)
  settled := passes.getLast?.any (·.changed.isEmpty)

theorem progressOf_nil (start : Assignment V) :
    machine.progressOf start [] = .start (machine.tabulate start) :=
  rfl

theorem next_progressOf (start : Assignment V) (passes : List (SpecifiedPass V P))
    (pass : SpecifiedPass V P) :
    (machine.progressOf start passes).next (machine.passOutcomeOf pass) =
      machine.progressOf start (passes ++ [pass]) := by
  have records : (machine.progressOf start passes).history.record
      ⟨passes.length + 1, pass.changed⟩ =
        (machine.progressOf start (passes ++ [pass])).history := by
    apply History.toList_injective
    simp [progressOf, List.mapIdx_concat]
  simp only [Progress.next, passOutcomeOf]
  rw [show (machine.progressOf start passes).passes = passes.length from rfl, records]
  simp [progressOf]

theorem insert_seed_tabulate (wellFormed : machine.WellFormed) {seed : State}
    (found : machine.states.find? (·.isSeed) = some seed) (initial : V) (values : Assignment V) :
    (machine.tabulate values).insert seed.id initial =
      machine.tabulate fun id => if id ∈ machine.seeds then initial else values id := by
  apply eq_tabulate wellFormed
  intro id
  have isSeed : id ∈ machine.seeds ↔ id = seed.id := by
    constructor
    · intro inSeeds
      exact wellFormed.eq_of_mem_seeds inSeeds found
    · rintro rfl
      exact List.mem_map_of_mem (List.mem_filter.mpr
        ⟨List.mem_of_find?_eq_some found, List.find?_some found⟩)
  have known : machine.knows seed.id = true :=
    knows_iff.mpr ⟨seed, List.mem_of_find?_eq_some found, rfl⟩
  rw [Std.ExtTreeMap.getElem?_insert, getElem?_tabulate wellFormed]
  by_cases same : id = seed.id
  · subst same
    simp [isSeed.mpr rfl, known]
  · have apart : ¬ seed.id = id := fun equal => same equal.symm
    simp [mt isSeed.mp same, apart]

section Runs

variable [BEq V] [BEq P]

/-- The passes that are left to a run are those specified from its present values. -/
theorem progressAfter_progressOf (wellFormed : machine.WellFormed) (left : Nat)
    (start : Assignment V) {earlier : List (SpecifiedPass V P)}
    (unsettled : (machine.progressOf start earlier).settled = false) :
    machine.progressAfter left (machine.progressOf start earlier) =
      ((fun later => machine.progressOf start (earlier ++ later)) <$>
        machine.specifiedRun left ((earlier.getLast?.map (·.after)).getD start)).mapError
          .operation := by
  induction left generalizing earlier with
  | zero => simp [specifiedRun, Except.mapError, Functor.map, Except.map]
  | succ left ih =>
      have passed := pass_tabulate wellFormed ((earlier.getLast?.map (·.after)).getD start)
      rw [progressAfter_succ unsettled, specifiedRun]
      show (machine.pass machine.incoming (machine.tabulate _)).result >>= _ = _
      rw [passed]
      cases machine.specifiedPass ((earlier.getLast?.map (·.after)).getD start) with
      | error cause => rfl
      | ok pass =>
          show machine.progressAfter left
            ((machine.progressOf start earlier).next (machine.passOutcomeOf pass)) = _
          rw [next_progressOf, ok_bind]
          have settles : (machine.progressOf start (earlier ++ [pass])).settled =
              pass.changed.isEmpty := by simp [progressOf]
          cases unchanged : pass.changed.isEmpty with
          | true =>
              rw [progressAfter_of_settled (settles.trans unchanged)]
              rfl
          | false =>
              have present : (((earlier ++ [pass]).getLast?.map (·.after)).getD start) =
                  pass.after := by simp
              rw [ih (settles.trans unchanged), present, if_neg Bool.false_ne_true]
              cases machine.specifiedRun left pass.after with
              | error cause => rfl
              | ok later =>
                  have regroup : earlier ++ [pass] ++ later = earlier ++ pass :: later := by simp
                  simp only [Functor.map, Except.map, Except.mapError, ok_bind, regroup]
                  rfl

theorem runFrom_tabulate (wellFormed : machine.WellFormed) (cap : Nat) (start : Assignment V) :
    machine.runFrom cap (machine.tabulate start) =
      (machine.outcomeOf cap start <$> machine.specifiedRun cap start).mapError
        (.failed ∘ .operation) := by
  have unsettled : (machine.progressOf start []).settled = false := rfl
  have present : (([] : List (SpecifiedPass V P)).getLast?.map (·.after)).getD start = start :=
    rfl
  rw [runFrom, ← progressOf_nil, progressAfter_progressOf wellFormed cap start unsettled, present]
  cases machine.specifiedRun cap start <;> rfl

theorem run_of_initial (wellFormed : machine.WellFormed) {seed : State}
    (found : machine.states.find? (·.isSeed) = some seed) (cap : Nat) (values : Assignment V) :
    (machine.initialValue >>= fun initial =>
        machine.runFrom cap ((machine.tabulate values).insert seed.id initial)) =
      (machine.specifiedOutcome cap values).mapError (.failed ∘ .operation) := by
  rw [initialValue, specifiedOutcome]
  cases machine.assembly.initial with
  | error cause => rfl
  | ok initial =>
      show machine.runFrom cap ((machine.tabulate values).insert seed.id initial) = _
      rw [insert_seed_tabulate wellFormed found, runFrom_tabulate wellFormed]
      rfl

theorem solve_as_specified (wellFormed : machine.WellFormed) (solver : Solver) :
    (solver.solve machine).result =
      (machine.specifiedOutcome solver.cap fun _ => machine.assembly.bottom).mapError
        (.failed ∘ .operation) := by
  obtain ⟨seed, -, -, found, -⟩ := wellFormed.exists_seed
  rw [result_solve, startValues_eq_map wellFormed found, ← run_of_initial wellFormed found,
    bind_map_left]
  rfl

theorem resume_as_specified (wellFormed : machine.WellFormed) (solver : Solver)
    {checkpoint : Checkpoint V} (sameName : checkpoint.machine = machine.name)
    (covers : machine.Covers checkpoint.semantics) :
    (solver.resume machine checkpoint).result =
      (machine.specifiedOutcome solver.cap (machine.assigned checkpoint.semantics)).mapError
        (.failed ∘ .operation) := by
  obtain ⟨seed, -, -, found, -⟩ := wellFormed.exists_seed
  rw [result_resume, resumeValues_eq_map wellFormed found sameName covers,
    ← run_of_initial wellFormed found, covers.tabulate_assigned wellFormed, bind_map_left]

theorem verify_as_specified (wellFormed : machine.WellFormed) {values : StateMap V}
    (covers : machine.Covers values) :
    (machine.verify values).result =
      ((·.changed) <$> machine.specifiedPass (machine.assigned values)).mapError
        (.failed ∘ .operation) := by
  have passed := pass_tabulate wellFormed (machine.assigned values)
  rw [covers.tabulate_assigned wellFormed] at passed
  rw [result_verify wellFormed covers, passed]
  cases machine.specifiedPass (machine.assigned values) <;> rfl

/-- The last pass of a run begins with what the one before it ended with, and its zones
are the specified ones of just these values. -/
theorem last_of_specifiedRun {cap : Nat} {start : Assignment V}
    {passes : List (SpecifiedPass V P)} (made : machine.specifiedRun cap start = .ok passes)
    {last : SpecifiedPass V P} (isLast : passes.getLast? = some last) :
    last.before = (passes.dropLast.getLast?.map (·.after)).getD start ∧
      machine.specifiedZones last.before = .ok last.zones := by
  induction cap generalizing start passes with
  | zero =>
      obtain rfl : [] = passes := Except.ok.inj made
      simp at isLast
  | succ cap ih =>
      rw [specifiedRun, bind_eq_ok] at made
      obtain ⟨pass, passed, made⟩ := made
      have zones : machine.specifiedZones start = .ok pass.zones ∧ pass.before = start := by
        simp only [specifiedPass, bind_eq_ok, pure_eq_ok] at passed
        obtain ⟨zones, specified, joined, -, rfl⟩ := passed
        exact ⟨specified, rfl⟩
      split at made
      · obtain rfl : [pass] = passes := pure_eq_ok.mp made
        obtain rfl : pass = last := by simpa using isLast
        exact ⟨zones.2, zones.2 ▸ zones.1⟩
      · simp only [bind_eq_ok, pure_eq_ok] at made
        obtain ⟨later, made, rfl⟩ := made
        cases later with
        | nil =>
            obtain rfl : pass = last := by simpa using isLast
            exact ⟨zones.2, zones.2 ▸ zones.1⟩
        | cons next later =>
            rw [List.getLast?_cons_cons] at isLast
            obtain ⟨began, specified⟩ := ih made isLast
            refine ⟨began.trans ?_, specified⟩
            cases later <;> simp [List.getLast?_cons]

/-- A well-formed machine is passed over, verified, solved and resumed as specified,
with the same failures. The zones of an outcome are those of the last pass, and they
belong to the values with which it began. -/
theorem runs_as_specified (wellFormed : machine.WellFormed) :
    (∀ values, machine.Covers values →
      (machine.pass machine.incoming values).result =
          (machine.passOutcomeOf <$>
            machine.specifiedPass (machine.assigned values)).mapError .operation ∧
        (machine.verify values).result =
          ((·.changed) <$> machine.specifiedPass (machine.assigned values)).mapError
            (.failed ∘ .operation)) ∧
    (∀ solver : Solver, (solver.solve machine).result =
      (machine.specifiedOutcome solver.cap fun _ => machine.assembly.bottom).mapError
        (.failed ∘ .operation)) ∧
    (∀ (solver : Solver) (checkpoint : Checkpoint V), checkpoint.machine = machine.name →
      machine.Covers checkpoint.semantics →
        (solver.resume machine checkpoint).result =
          (machine.specifiedOutcome solver.cap
            (machine.assigned checkpoint.semantics)).mapError (.failed ∘ .operation)) ∧
    ∀ cap start passes last, machine.specifiedRun cap start = .ok passes →
      passes.getLast? = some last →
        last.before = (passes.dropLast.getLast?.map (·.after)).getD start ∧
          machine.specifiedZones last.before = .ok last.zones := by
  refine ⟨fun values covers => ?_, solve_as_specified wellFormed,
    fun solver checkpoint => resume_as_specified wellFormed solver,
    fun cap start passes last made isLast => last_of_specifiedRun made isLast⟩
  have passed := pass_tabulate wellFormed (machine.assigned values)
  rw [covers.tabulate_assigned wellFormed] at passed
  refine ⟨passed, ?_⟩
  rw [result_verify wellFormed covers, passed]
  cases machine.specifiedPass (machine.assigned values) <;> rfl

end Runs

theorem ladder_as_specified :
    (∃ solution, (Solver.standard.solve Samples.ladder).result = .ok solution ∧
      solution.iterations = 6 ∧
      Samples.ladder.specifiedOutcome 1000 (fun _ => 0) = .ok solution) ∧
    (Solver.standard.solve Samples.brokenLadder).result =
      .error (.failed (.operation (.unknownTransition "lift" "up2"))) ∧
    Samples.brokenLadder.specifiedOutcome 1000 (fun _ => 0) =
      .error (.unknownTransition "lift" "up2") := by
  have wellFormed : Samples.ladder.WellFormed := violations_eq_nil_iff.mp (by decide)
  have stillWellFormed : Samples.brokenLadder.WellFormed := violations_eq_nil_iff.mp (by decide)
  obtain ⟨solution, solved, counted⟩ : ∃ solution,
      (Solver.standard.solve Samples.ladder).result = .ok solution ∧ solution.iterations = 6 :=
    exists_ok_of_any (by decide +kernel)
  have specified := (runs_as_specified wellFormed).2.1 Solver.standard
  have specifiedFailure := (runs_as_specified stillWellFormed).2.1 Solver.standard
  have failed : (Samples.brokenLadder.specifiedOutcome 1000 fun _ => 0) =
      .error (.unknownTransition "lift" "up2") :=
    eq_error_of_computed (by decide +kernel)
  refine ⟨⟨solution, solved, counted, ?_⟩, ?_, failed⟩
  · exact mapError_eq_ok.mp (specified.symm.trans solved)
  · rw [specifiedFailure]
    exact congrArg (Except.mapError _) failed

end Machine
end ReactiveReach
