import ReactiveReach.Proofs.Start

/-!
# What a pass reads

The exit zones that a pass uses are those of the values before it, so a transition
passes on what it makes of the value of its source alone. A pass over one machine
and a pass over another therefore give a state the same value when the transitions
into it are the same and begin where both machines have the same values.
-/

namespace ReactiveReach.Machine

variable {V P E : Type} [BEq P]

def carry (machine : Machine V P E) (value : V) (transition : Transition P) :
    Except (Fault E) V :=
  match machine.state? transition.source with
  | some source => Except.mapError .operation do
    transition.contribute machine.assembly source value (← machine.exitsFor source value)
  | none => .error (.absent transition.source)

/-- What a transition makes of the present value of its source. -/
def arrival (machine : Machine V P E) (values : StateMap V) (transition : Transition P) :
    Except (Fault E) V := do
  machine.carry (← entryOf values transition.source) transition

variable {machine first second : Machine V P E} {values others : StateMap V}

theorem arrival_eq_ok_iff {transition : Transition P} {result : V} :
    machine.arrival values transition = .ok result ↔
      ∃ value, values[transition.source]? = some value ∧
        machine.carry value transition = .ok result := by
  simp only [arrival, bind_eq_ok, entryOf_eq_ok]

omit [BEq P] in
theorem exitsFor_of_zonesUnder {state : State} {value : V} {exits : List (ExitZone P)}
    (under : machine.zonesUnder values state = .ok exits)
    (found : values[state.id]? = some value) : machine.exitsFor state value = .ok exits := by
  unfold zonesUnder at under
  unfold exitsFor
  cases isSeed : state.isSeed with
  | true => simpa [isSeed] using under
  | false =>
      simp only [isSeed, Bool.false_eq_true, if_false, bind_eq_ok, entryOf_eq_ok,
        mapError_eq_ok, found, Option.some.injEq, exists_eq_left'] at under ⊢
      exact under

theorem given_eq_arrival (wellFormed : machine.WellFormed) {zones : ZoneMap P}
    (refreshed : machine.refreshZones values = .ok zones) {transition : Transition P}
    (member : transition ∈ machine.transitions) :
    machine.given values zones transition = machine.arrival values transition := by
  obtain ⟨source, sourceMem, sourceId, lookup⟩ := wellFormed.exists_source member
  obtain ⟨exits, under, stored⟩ :=
    ((refreshZones_eq_ok_iff wellFormed).mp refreshed).1 source sourceMem
  have zonesThere : (entryOf zones source.id : Except (Fault E) _) = .ok exits :=
    entryOf_eq_ok.mpr stored
  simp only [given, givenFrom, arrival, carry, lookup, zonesThere, ok_bind]
  rw [← sourceId]
  cases found : (entryOf values source.id : Except (Fault E) V) with
  | error fault => rfl
  | ok value =>
      have exiting := exitsFor_of_zonesUnder under (entryOf_eq_ok.mp found)
      rw [ok_bind, ok_bind, exiting, ok_bind]

theorem joinedAt_eq_arrivals (wellFormed : machine.WellFormed) {zones : ZoneMap P}
    (refreshed : machine.refreshZones values = .ok zones) (id : StateId) :
    machine.joinedAt values zones id =
      machine.assembly.joinEach (machine.arrival values)
        (machine.transitions.filter (·.targets id)) := by
  apply foldlM_congr
  intro transition into joined
  rw [given_eq_arrival wellFormed refreshed (List.mem_of_mem_filter into)]

omit [BEq P] in
theorem zonesUnder_congr (exits : first.exits = second.exits) {state : State}
    (found : values[state.id]? = others[state.id]?) :
    first.zonesUnder values state = second.zonesUnder others state := by
  simp only [zonesUnder, entryOf, exits, found]

theorem arrival_congr (assembly : first.assembly = second.assembly)
    (exits : first.exits = second.exits) {transition : Transition P}
    (source : first.state? transition.source = second.state? transition.source)
    (found : values[transition.source]? = others[transition.source]?) :
    first.arrival values transition = second.arrival others transition := by
  simp only [arrival, entryOf, carry, exitsFor, assembly, exits, source, found]

/-- Both maps have a value for a state, and it is the same. -/
def AgreeAt (values others : StateMap V) (id : StateId) : Prop :=
  ∃ value, values[id]? = some value ∧ others[id]? = some value

omit [BEq P] in
/-- Runs begin with the same value at a seed that their machines share, and keep it. -/
theorem Anchored.agree_at_seed (assembly : first.assembly = second.assembly)
    (anchored : first.Anchored values) (otherAnchored : second.Anchored others) {state : State}
    (member : state ∈ first.states) (otherMember : state ∈ second.states)
    (isSeed : state.isSeed = true) : AgreeAt values others state.id := by
  obtain ⟨-, initial, -, given, -⟩ := anchored.pinned
  have otherGiven : second.assembly.initial = .ok initial := assembly ▸ given
  have found := anchored.wellFormed.find?_seed member isSeed
  have otherFound := otherAnchored.wellFormed.find?_seed otherMember isSeed
  exact ⟨initial, anchored.at_seed found given, otherAnchored.at_seed otherFound otherGiven⟩

omit [BEq P] in
theorem Covers.eq_of_agree (covers : machine.Covers values) (otherCovers : machine.Covers others)
    (agree : ∀ state ∈ machine.states, AgreeAt values others state.id) : values = others := by
  apply Std.ExtTreeMap.ext_getElem?
  intro id
  by_cases known : machine.knows id = true
  · obtain ⟨state, member, rfl⟩ := knows_iff.mp known
    obtain ⟨value, found, otherFound⟩ := agree state member
    rw [found, otherFound]
  · have absent : id ∉ values := fun present => known ((covers id).mp present)
    have otherAbsent : id ∉ others := fun present => known ((otherCovers id).mp present)
    rw [Std.ExtTreeMap.getElem?_eq_none absent, Std.ExtTreeMap.getElem?_eq_none otherAbsent]

variable [BEq V] [LawfulBEq V]

/-- Passes over two machines agree on a state when the same transitions lead there from
states on whose values they agreed before. -/
theorem IsPass.agree (assembly : first.assembly = second.assembly)
    (exits : first.exits = second.exits) (wellFormed : first.WellFormed)
    (otherWellFormed : second.WellFormed) {outcome otherOutcome : PassOutcome V P}
    (isPass : first.IsPass values outcome) (otherPass : second.IsPass others otherOutcome)
    {state : State} (member : state ∈ first.recomputed) (otherMember : state ∈ second.recomputed)
    (incoming : first.transitions.filter (·.targets state.id) =
      second.transitions.filter (·.targets state.id))
    (sources : ∀ transition ∈ first.transitions, transition.target = state.id →
      ∃ source, source ∈ first.states ∧ source ∈ second.states ∧
        source.id = transition.source ∧ AgreeAt values others source.id) :
    AgreeAt outcome.semantics otherOutcome.semantics state.id := by
  obtain ⟨-, after, -, joined, stored, -⟩ := isPass.exists_recomputed member
  obtain ⟨-, otherAfter, -, otherJoined, otherStored, -⟩ :=
    otherPass.exists_recomputed otherMember
  rw [joinedAt_eq_arrivals wellFormed isPass.refreshed] at joined
  rw [joinedAt_eq_arrivals otherWellFormed otherPass.refreshed, ← assembly, ← incoming]
    at otherJoined
  have sameArrivals : first.assembly.joinEach (first.arrival values)
      (first.transitions.filter (·.targets state.id)) =
        first.assembly.joinEach (second.arrival others)
          (first.transitions.filter (·.targets state.id)) := by
    apply foldlM_congr
    intro transition into sofar
    obtain ⟨listed, target⟩ := mem_filter_targets.mp into
    obtain ⟨source, sourceMem, otherSourceMem, sourceId, value, found, otherFound⟩ :=
      sources transition listed target
    rw [arrival_congr assembly exits]
    · rw [← sourceId, wellFormed.state?_id sourceMem, otherWellFormed.state?_id otherSourceMem]
    · rw [← sourceId, found, otherFound]
  rw [sameArrivals, otherJoined, Except.ok.injEq] at joined
  exact ⟨after, stored, joined ▸ otherStored⟩

end ReactiveReach.Machine
