import Mathlib.Data.List.Perm.Basic
import ReactiveReach.Proofs.Results
import ReactiveReach.Proofs.WellFormed

/-!
# What a pass computes

A pass groups the transitions by target before it looks at any value. The result
is that of the plain rule: every state but the seed gets the join of what the
transitions into it contribute, taken in the order of the machine, from the values
before the pass and the exit zones of those values.
-/

namespace ReactiveReach

variable {V P E : Type}

@[simp]
theorem entryOf_eq_ok {α : Type} {map : StateMap α} {state : StateId} {entry : α} :
    (entryOf map state : Except (Fault E) α) = .ok entry ↔ map[state]? = some entry := by
  unfold entryOf
  split <;> rename_i found <;> simp [found]

/-- The join of what some members of a list give, from bottom on and in order. -/
def Assembly.joinEach {α ε : Type} (assembly : Assembly V P E) (give : α → Except ε V)
    (members : List α) : Except ε V :=
  members.foldlM (fun joined member => do return assembly.join joined (← give member))
    assembly.bottom

theorem Assembly.joinEach_eq_ok_iff {α ε : Type} {assembly : Assembly V P E}
    {give : α → Except ε V} {members : List α} {joined : V} :
    assembly.joinEach give members = .ok joined ↔
      ∃ values, members.mapM give = .ok values ∧
        values.foldl assembly.join assembly.bottom = joined := by
  unfold joinEach
  generalize assembly.bottom = start
  induction members generalizing start with
  | nil => simp
  | cons member members ih =>
      simp only [List.foldlM_cons, List.mapM_cons, bind_eq_ok, pure_eq_ok, ih]
      constructor
      · rintro ⟨_, ⟨value, given, rfl⟩, values, rest, folded⟩
        exact ⟨value :: values, ⟨value, given, values, rest, rfl⟩, folded⟩
      · rintro ⟨_, ⟨value, given, values, rest, rfl⟩, folded⟩
        exact ⟨_, ⟨value, given, rfl⟩, values, rest, folded⟩

theorem Assembly.exists_joinEach_iff {α ε : Type} {assembly : Assembly V P E}
    {give : α → Except ε V} {members : List α} :
    (∃ joined, assembly.joinEach give members = .ok joined) ↔
      ∀ member ∈ members, ∃ value, give member = .ok value := by
  rw [← exists_mapM_eq_ok_iff]
  simp only [joinEach_eq_ok_iff]
  constructor
  · rintro ⟨_, values, mapped, -⟩
    exact ⟨values, mapped⟩
  · rintro ⟨values, mapped⟩
    exact ⟨_, values, mapped, rfl⟩

theorem Assembly.joinEach_filterMap {α β ε : Type} {assembly : Assembly V P E}
    {translate : α → Option β} {give : β → Except ε V} {giveFirst : α → Except ε V}
    {members : List α}
    (same : ∀ member ∈ members,
      ∃ image, translate member = some image ∧ give image = giveFirst member) :
    assembly.joinEach give (members.filterMap translate) =
      assembly.joinEach giveFirst members := by
  unfold joinEach
  generalize assembly.bottom = joined
  induction members generalizing joined with
  | nil => rfl
  | cons member members ih =>
      obtain ⟨image, translated, equal⟩ := same member List.mem_cons_self
      have rest := ih fun other otherMem => same other (List.mem_cons_of_mem member otherMem)
      simp only [List.filterMap_cons, translated, List.foldlM_cons, equal, rest]

namespace Machine

/-- The exit zones of a state for a value that has arrived there. -/
def exitsFor (machine : Machine V P E) (state : State) (value : V) :
    Except E (List (ExitZone P)) :=
  if state.isSeed then .ok [] else machine.exits state value

section Plain

variable [BEq P]

/-- What a transition that leaves `source` gives to its target. -/
def givenFrom (machine : Machine V P E) (values : StateMap V) (zones : ZoneMap P)
    (source : State) (transition : Transition P) : Except (Fault E) V := do
  let value ← entryOf values source.id
  let exits ← entryOf zones source.id
  (transition.contribute machine.assembly source value exits).mapError .operation

/-- What a transition gives to its target under some values and exit zones. -/
def given (machine : Machine V P E) (values : StateMap V) (zones : ZoneMap P)
    (transition : Transition P) : Except (Fault E) V :=
  match machine.state? transition.source with
  | some source => machine.givenFrom values zones source transition
  | none => .error (.absent transition.source)

/-- The join of what the transitions into a state give, in the order of the machine. -/
def joinedAt (machine : Machine V P E) (values : StateMap V) (zones : ZoneMap P)
    (state : StateId) : Except (Fault E) V :=
  machine.assembly.joinEach (machine.given values zones)
    (machine.transitions.filter (·.targets state))

def plainRecompute (machine : Machine V P E) (values : StateMap V) (zones : ZoneMap P)
    (state : State) : Except (Fault E) (StateId × V × V) := do
  let after ← machine.joinedAt values zones state.id
  let before ← entryOf values state.id
  return (state.id, before, after)

/-- A pass that groups nothing beforehand. -/
def plainPass [BEq V] (machine : Machine V P E) (values : StateMap V) :
    Except (Fault E) (PassOutcome V P) := do
  let zones ← machine.refreshZones values
  let results ← machine.recomputed.mapM (machine.plainRecompute values zones)
  let updates := results.filter fun (_, before, after) => after != before
  return {
    semantics := updates.foldl (fun values (id, _, after) => values.insert id after) values
    zones
    changed := updates.map (·.1) }

end Plain

variable {machine : Machine V P E}

/-- A map with an entry for every state has that entry under the id of the state, and no
entry under other ids. -/
theorem WellFormed.getElem?_ofList {α : Type} (wellFormed : machine.WellFormed)
    (entry : State → α) (id : StateId) :
    (Std.ExtTreeMap.ofList (machine.states.map fun state => (state.id, entry state)) :
      StateMap α)[id]? = (machine.state? id).map entry := by
  by_cases known : ∃ state ∈ machine.states, state.id = id
  · obtain ⟨state, member, rfl⟩ := known
    rw [wellFormed.state?_id member]
    refine Std.ExtTreeMap.getElem?_ofList_of_mem Std.ReflCmp.compare_self ?_
      (List.mem_map_of_mem (f := fun state => (state.id, entry state)) member)
    rw [List.pairwise_map]
    simpa [List.Nodup, List.pairwise_map] using wellFormed.distinct_ids
  · have lookup : machine.state? id = none := by
      simpa [state?] using known
    rw [lookup]
    refine Std.ExtTreeMap.getElem?_ofList_of_contains_eq_false ?_
    simpa [List.contains_eq_mem] using known

theorem getElem?_statesById (wellFormed : machine.WellFormed) (id : StateId) :
    machine.statesById[id]? = machine.state? id := by
  rw [statesById, wellFormed.getElem?_ofList, Option.map_id']

theorem mem_filter_targets {id : StateId} {transition : Transition P} :
    transition ∈ machine.transitions.filter (·.targets id) ↔
      transition ∈ machine.transitions ∧ transition.target = id := by
  simp [Transition.targets]

theorem getD_incoming (machine : Machine V P E) (id : StateId) :
    machine.incoming.getD id [] =
      (machine.transitions.filter (·.targets id)).filterMap fun transition =>
        machine.statesById[transition.source]?.map (·, transition) := by
  unfold incoming
  induction machine.transitions with
  | nil => simp
  | cons transition transitions ih =>
      simp only [List.foldr_cons, Transition.targets, List.filter_cons, beq_iff_eq]
      cases source : machine.statesById[transition.source]? with
      | none => by_cases target : transition.target = id <;> simp_all [Transition.targets]
      | some state =>
          by_cases target : transition.target = id
          · subst target
            simp_all [Transition.targets]
          · simp_all [Transition.targets, Std.ExtTreeMap.getD_insert]

section Outcome

variable [BEq P]

theorem result_contribution (transition : Transition P) (assembly : Assembly V P E)
    (source : State) (value : V) (exits : List (ExitZone P)) :
    (transition.contribution assembly source value exits).result =
      transition.contribute assembly source value exits := by
  simp only [Transition.contribution, Logged.result_bind, Logged.result_ofExcept,
    Logged.result_emit, Logged.result_pure]
  cases transition.contribute assembly source value exits <;> rfl

theorem result_joinIncoming (values : StateMap V) (zones : ZoneMap P)
    (edges : List (State × Transition P)) :
    (machine.joinIncoming values zones edges).result =
      machine.assembly.joinEach
        (fun edge => machine.givenFrom values zones edge.1 edge.2) edges := by
  unfold joinIncoming Assembly.joinEach givenFrom
  rw [Logged.result_foldlM]
  simp only [Logged.result_bind, Logged.result_ofExcept, Logged.result_mapError,
    Logged.result_pure, result_contribution, bind_assoc]
  rfl

theorem result_joinIncoming_incoming (wellFormed : machine.WellFormed)
    (values : StateMap V) (zones : ZoneMap P) (id : StateId) :
    (machine.joinIncoming values zones (machine.incoming.getD id [])).result =
      machine.joinedAt values zones id := by
  rw [result_joinIncoming, getD_incoming, joinedAt]
  refine Assembly.joinEach_filterMap fun transition member => ?_
  obtain ⟨source, -, -, lookup⟩ :=
    wellFormed.exists_source (List.mem_of_mem_filter member)
  have byId := (getElem?_statesById wellFormed transition.source).trans lookup
  exact ⟨(source, transition), by simp [byId], by simp [given, lookup]⟩

/-- Grouping the transitions changes nothing about a pass. -/
theorem result_pass [BEq V] (wellFormed : machine.WellFormed) (values : StateMap V) :
    (machine.pass machine.incoming values).result = machine.plainPass values := by
  have recompute (zones : ZoneMap P) (state : State) :
      (machine.recompute machine.incoming values zones state).result =
        machine.plainRecompute values zones state := by
    simp only [Machine.recompute, plainRecompute, Logged.result_bind,
      Logged.result_ofExcept, Logged.result_pure, result_joinIncoming_incoming wellFormed]
    rfl
  simp only [pass, plainPass, Logged.result_bind, Logged.result_ofExcept,
    Logged.result_mapM, Logged.result_pure, recompute]
  rfl

end Outcome

section Refresh

theorem foldlM_insert_eq_ok_iff {α ε : Type} {operation : State → Except ε α}
    {states : List State} (distinct : (states.map (·.id)).Nodup)
    {start final : StateMap α} :
    states.foldlM (fun map state => do return map.insert state.id (← operation state))
        start = .ok final ↔
      (∀ state ∈ states, ∃ entry,
        operation state = .ok entry ∧ final[state.id]? = some entry) ∧
      ∀ id, (∀ state ∈ states, state.id ≠ id) → final[id]? = start[id]? := by
  induction states generalizing start with
  | nil =>
      simp only [List.foldlM_nil, pure_eq_ok, List.not_mem_nil, false_implies, implies_true,
        true_and, forall_const]
      exact ⟨fun equal id => equal ▸ rfl, fun equal => (Std.ExtTreeMap.ext_getElem? equal).symm⟩
  | cons state states ih =>
      rw [List.map_cons, List.nodup_cons] at distinct
      obtain ⟨fresh, distinctRest⟩ := distinct
      have other : ∀ next ∈ states, next.id ≠ state.id := fun next member equal =>
        fresh (equal ▸ List.mem_map_of_mem member)
      simp only [List.foldlM_cons, bind_eq_ok, pure_eq_ok, List.forall_mem_cons]
      constructor
      · rintro ⟨_, ⟨entry, operated, rfl⟩, rest⟩
        obtain ⟨stored, kept⟩ := (ih distinctRest).mp rest
        refine ⟨⟨⟨entry, operated, ?_⟩, stored⟩, fun id apart => ?_⟩
        · rw [kept state.id other, Std.ExtTreeMap.getElem?_insert_self]
        · rw [kept id apart.2, Std.ExtTreeMap.getElem?_insert, if_neg (by simpa using apart.1)]
      · rintro ⟨⟨⟨entry, operated, here⟩, stored⟩, kept⟩
        refine ⟨_, ⟨entry, operated, rfl⟩, (ih distinctRest).mpr ⟨stored, fun id apart => ?_⟩⟩
        rw [Std.ExtTreeMap.getElem?_insert]
        by_cases same : state.id = id
        · subst same
          simpa using here
        · simpa [same] using kept id ⟨same, apart⟩

theorem refreshZones_eq_ok_iff (wellFormed : machine.WellFormed) {values : StateMap V}
    {zones : ZoneMap P} :
    machine.refreshZones values = .ok zones ↔
      (∀ state ∈ machine.states, ∃ exits,
        machine.zonesUnder values state = .ok exits ∧ zones[state.id]? = some exits) ∧
      ∀ id, (∀ state ∈ machine.states, state.id ≠ id) → zones[id]? = none := by
  rw [refreshZones, foldlM_insert_eq_ok_iff wellFormed.distinct_ids]
  simp

end Refresh

section IsPass

theorem getElem?_foldl_insert {updates : List (StateId × V × V)}
    (distinct : (updates.map (·.1)).Nodup) (values : StateMap V) :
    let final := updates.foldl (fun map (id, _, after) => map.insert id after) values
    (∀ update ∈ updates, final[update.1]? = some update.2.2) ∧
      ∀ id, id ∉ updates.map (·.1) → final[id]? = values[id]? := by
  induction updates generalizing values with
  | nil => simp
  | cons update updates ih =>
      rw [List.map_cons, List.nodup_cons] at distinct
      obtain ⟨fresh, distinctRest⟩ := distinct
      obtain ⟨stored, kept⟩ := ih distinctRest (values.insert update.1 update.2.2)
      refine ⟨List.forall_mem_cons.mpr ⟨?_, stored⟩, fun id apart => ?_⟩
      · rw [List.foldl_cons, kept update.1 fresh, Std.ExtTreeMap.getElem?_insert_self]
      · rw [List.map_cons, List.mem_cons, not_or] at apart
        rw [List.foldl_cons, kept id apart.2, Std.ExtTreeMap.getElem?_insert,
          if_neg (by simpa using Ne.symm apart.1)]

variable [BEq V] [BEq P]

/-- What a pass that ends with `outcome` makes of `values`. A recomputed value
replaces the present one only where the two differ. -/
structure IsPass (machine : Machine V P E) (values : StateMap V)
    (outcome : PassOutcome V P) : Prop where
  refreshed : machine.refreshZones values = .ok outcome.zones
  recomputed : ∀ state ∈ machine.recomputed, ∃ before after,
    values[state.id]? = some before ∧
      machine.joinedAt values outcome.zones state.id = .ok after ∧
      outcome.semantics[state.id]? = some (if after == before then before else after) ∧
      (state.id ∈ outcome.changed ↔ (after == before) = false)
  kept : ∀ id, id ∉ machine.recomputed.map (·.id) → outcome.semantics[id]? = values[id]?
  in_order : outcome.changed.Sublist (machine.recomputed.map (·.id))

omit [BEq V] [BEq P] in
theorem WellFormed.recomputed_nodup (wellFormed : machine.WellFormed) :
    (machine.recomputed.map (·.id)).Nodup :=
  wellFormed.distinct_ids.sublist (List.filter_sublist.map _)

omit [BEq V] in
theorem plainRecompute_eq_ok_iff {values : StateMap V} {zones : ZoneMap P} {state : State}
    {result : StateId × V × V} :
    machine.plainRecompute values zones state = .ok result ↔
      ∃ before after, values[state.id]? = some before ∧
        machine.joinedAt values zones state.id = .ok after ∧
        (state.id, before, after) = result := by
  simp only [plainRecompute, bind_eq_ok, pure_eq_ok, entryOf_eq_ok]
  constructor
  · rintro ⟨after, joined, before, found, rfl⟩
    exact ⟨before, after, found, joined, rfl⟩
  · rintro ⟨before, after, found, joined, rfl⟩
    exact ⟨after, joined, before, found, rfl⟩

theorem isPass_of_plainPass (wellFormed : machine.WellFormed) {values : StateMap V}
    {outcome : PassOutcome V P} (passed : machine.plainPass values = .ok outcome) :
    machine.IsPass values outcome := by
  simp only [plainPass, bind_eq_ok, pure_eq_ok] at passed
  obtain ⟨zones, refreshed, results, computed, rfl⟩ := passed
  have ids : results.map (·.1) = machine.recomputed.map (·.id) :=
    map_eq_of_mapM_eq_ok computed fun state result recomputed => by
      obtain ⟨before, after, -, -, rfl⟩ := plainRecompute_eq_ok_iff.mp recomputed
      rfl
  have distinct : (results.map (·.1)).Nodup := ids ▸ wellFormed.recomputed_nodup
  have inOrder : ((results.filter fun (_, before, after) => after != before).map (·.1)).Sublist
      (results.map (·.1)) := List.filter_sublist.map _
  obtain ⟨stored, kept⟩ := getElem?_foldl_insert (distinct.sublist inOrder) values
  refine ⟨refreshed, fun state member => ?_, fun id apart => ?_, ids ▸ inOrder⟩
  · obtain ⟨result, resultMem, recomputed⟩ := exists_of_mapM_eq_ok computed state member
    obtain ⟨before, after, found, joined, rfl⟩ := plainRecompute_eq_ok_iff.mp recomputed
    refine ⟨before, after, found, joined, ?_⟩
    by_cases same : after == before
    · -- An update of this state could only be the result that was filtered out.
      have unchanged : state.id ∉
          (results.filter fun (_, before, after) => after != before).map (·.1) := by
        intro updated
        obtain ⟨update, updateMem, updateId⟩ := List.mem_map.mp updated
        obtain ⟨resultMem', differs⟩ := List.mem_filter.mp updateMem
        have : update = (state.id, before, after) :=
          List.inj_on_of_nodup_map distinct resultMem' resultMem updateId
        subst this
        simp [bne, same] at differs
      refine ⟨?_, iff_of_false unchanged (by simp [same])⟩
      rw [if_pos same, kept state.id unchanged, found]
    · have updated : (state.id, before, after) ∈
          results.filter fun (_, before, after) => after != before :=
        List.mem_filter.mpr ⟨resultMem, by simp [bne, same]⟩
      refine ⟨?_, iff_of_true (List.mem_map_of_mem (f := (·.1)) updated) (by simpa using same)⟩
      rw [if_neg same, stored _ updated]
  · exact kept id fun updated => apart (ids ▸ inOrder.subset updated)

theorem isPass_of_pass (wellFormed : machine.WellFormed) {values : StateMap V}
    {outcome : PassOutcome V P}
    (passed : (machine.pass machine.incoming values).result = .ok outcome) :
    machine.IsPass values outcome :=
  isPass_of_plainPass wellFormed (result_pass wellFormed values ▸ passed)

theorem IsPass.unique (wellFormed : machine.WellFormed) {values : StateMap V}
    {outcome other : PassOutcome V P} (first : machine.IsPass values outcome)
    (second : machine.IsPass values other) : outcome = other := by
  have zones : outcome.zones = other.zones :=
    Except.ok.inj (first.refreshed.symm.trans second.refreshed)
  -- Both passes see the same values, so they store and report the same.
  have agree : ∀ state ∈ machine.recomputed,
      outcome.semantics[state.id]? = other.semantics[state.id]? ∧
        (state.id ∈ outcome.changed ↔ state.id ∈ other.changed) := by
    intro state member
    obtain ⟨before, after, found, joined, stored, changed⟩ := first.recomputed state member
    obtain ⟨_, _, otherFound, otherJoined, otherStored, otherChanged⟩ :=
      second.recomputed state member
    rw [found, Option.some.injEq] at otherFound
    rw [← zones, joined, Except.ok.injEq] at otherJoined
    subst otherFound otherJoined
    exact ⟨stored.trans otherStored.symm, changed.trans otherChanged.symm⟩
  have semantics : outcome.semantics = other.semantics := by
    refine Std.ExtTreeMap.ext_getElem? fun id => ?_
    by_cases touched : id ∈ machine.recomputed.map (·.id)
    · obtain ⟨state, member, rfl⟩ := List.mem_map.mp touched
      exact (agree state member).1
    · rw [first.kept id touched, second.kept id touched]
  have changed : outcome.changed = other.changed := by
    have nodup : (machine.recomputed.map (·.id)).Nodup := wellFormed.recomputed_nodup
    apply (List.Nodup.perm_iff_eq_of_sublist nodup first.in_order second.in_order).mp
    apply (List.perm_ext_iff_of_nodup (nodup.sublist first.in_order)
      (nodup.sublist second.in_order)).mpr
    intro id
    constructor
    · intro listed
      obtain ⟨state, member, rfl⟩ := List.mem_map.mp (first.in_order.subset listed)
      exact (agree state member).2.mp listed
    · intro listed
      obtain ⟨state, member, rfl⟩ := List.mem_map.mp (second.in_order.subset listed)
      exact (agree state member).2.mpr listed
  obtain ⟨⟩ := outcome
  obtain ⟨⟩ := other
  simp only at zones semantics changed
  rw [zones, semantics, changed]

/-- `IsPass` says everything about a pass that succeeds. -/
theorem pass_eq_ok_iff (wellFormed : machine.WellFormed) {values : StateMap V}
    {outcome : PassOutcome V P} :
    (machine.pass machine.incoming values).result = .ok outcome ↔
      machine.IsPass values outcome := by
  constructor
  · exact isPass_of_pass wellFormed
  · intro isPass
    have computed : ∀ state ∈ machine.recomputed, ∃ result,
        machine.plainRecompute values outcome.zones state = .ok result := by
      intro state member
      obtain ⟨before, after, found, joined, -⟩ := isPass.recomputed state member
      exact ⟨_, plainRecompute_eq_ok_iff.mpr ⟨before, after, found, joined, rfl⟩⟩
    obtain ⟨results, mapped⟩ := exists_mapM_eq_ok_iff.mpr computed
    have passed : ∃ other, machine.plainPass values = .ok other := by
      simp [plainPass, isPass.refreshed, mapped, pure, Except.pure]
    obtain ⟨other, passed⟩ := passed
    have sameOutcome : other = outcome :=
      (isPass_of_plainPass wellFormed passed).unique wellFormed isPass
    rw [result_pass wellFormed, passed, sameOutcome]

namespace IsPass

variable {values : StateMap V} {outcome : PassOutcome V P}

/-- Where equality of values is equality, a pass stores just what it computed. -/
theorem exists_recomputed [LawfulBEq V] (isPass : machine.IsPass values outcome) {state : State}
    (member : state ∈ machine.recomputed) :
    ∃ before after, values[state.id]? = some before ∧
      machine.joinedAt values outcome.zones state.id = .ok after ∧
      outcome.semantics[state.id]? = some after ∧
      (state.id ∈ outcome.changed ↔ after ≠ before) := by
  obtain ⟨before, after, found, joined, replaced, changed⟩ := isPass.recomputed state member
  refine ⟨before, after, found, joined, ?_, by simpa using changed⟩
  by_cases same : after = before
  · rw [replaced, same, ite_self]
  · rw [replaced, if_neg (by simpa using same)]

/-- A pass that changes nothing ends with the values it began with, whatever
equality of values means. -/
theorem semantics_eq (isPass : machine.IsPass values outcome) (unchanged : outcome.changed = []) :
    outcome.semantics = values := by
  refine Std.ExtTreeMap.ext_getElem? fun id => ?_
  by_cases touched : id ∈ machine.recomputed.map (·.id)
  · obtain ⟨state, member, rfl⟩ := List.mem_map.mp touched
    obtain ⟨before, after, found, -, replaced, changed⟩ := isPass.recomputed state member
    have same : (after == before) = true := by
      rw [unchanged] at changed
      simpa using changed
    rw [replaced, found, if_pos same]
  · exact isPass.kept id touched

theorem mem_changed_iff [LawfulBEq V] (isPass : machine.IsPass values outcome) {id : StateId} :
    id ∈ outcome.changed ↔ outcome.semantics[id]? ≠ values[id]? := by
  by_cases touched : id ∈ machine.recomputed.map (·.id)
  · obtain ⟨state, member, rfl⟩ := List.mem_map.mp touched
    obtain ⟨before, after, found, -, stored, differs⟩ := isPass.exists_recomputed member
    rw [differs, stored, found, ne_eq, ne_eq, Option.some.injEq]
  · have unlisted : id ∉ outcome.changed := fun listed => touched (isPass.in_order.subset listed)
    simp [unlisted, isPass.kept id touched]

theorem changed_eq_nil [LawfulBEq V] (isPass : machine.IsPass values outcome)
    (same : outcome.semantics = values) : outcome.changed = [] := by
  rw [List.eq_nil_iff_forall_not_mem]
  intro id
  rw [isPass.mem_changed_iff, same]
  exact not_not.mpr rfl

theorem mem_semantics_iff (isPass : machine.IsPass values outcome) {id : StateId} :
    id ∈ outcome.semantics ↔ id ∈ values := by
  rw [Std.ExtTreeMap.mem_iff_isSome_getElem?, Std.ExtTreeMap.mem_iff_isSome_getElem?]
  by_cases touched : id ∈ machine.recomputed.map (·.id)
  · obtain ⟨state, member, rfl⟩ := List.mem_map.mp touched
    obtain ⟨before, after, found, -, replaced, -⟩ := isPass.recomputed state member
    simp [found, replaced]
  · rw [isPass.kept id touched]

theorem getElem?_seed (wellFormed : machine.WellFormed) (isPass : machine.IsPass values outcome)
    {seed : State} (member : seed ∈ machine.states) (isSeed : seed.isSeed = true) :
    outcome.semantics[seed.id]? = values[seed.id]? := by
  refine isPass.kept seed.id fun touched => ?_
  obtain ⟨state, stateMem, sameId⟩ := List.mem_map.mp touched
  obtain ⟨stateMem, ordinary⟩ := List.mem_filter.mp stateMem
  rw [wellFormed.eq_of_id_eq stateMem member sameId] at ordinary
  simp [isSeed] at ordinary

end IsPass

end IsPass

end Machine
end ReactiveReach
