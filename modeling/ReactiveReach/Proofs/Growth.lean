import ReactiveReach.Proofs.Lattice
import ReactiveReach.Proofs.Locality
import ReactiveReach.Proofs.Run

/-!
# Values grow from pass to pass

Values of states are compared state by state. Over a lawful machine a pass from
greater values finds more exit zones, so every transition gives more and the values
after the pass are greater. Solving begins below whatever covers the machine and has
the initial value at the seed, and therefore the values only grow from pass to pass.
-/

namespace ReactiveReach

variable {V P E : Type} [BEq V]

/-- Every value is below a value that the other map has for the same state. -/
def Assembly.AllBelow (assembly : Assembly V P E) (values others : StateMap V) : Prop :=
  ∀ (id : StateId) (value : V), values[id]? = some value →
    ∃ other, others[id]? = some other ∧ assembly.below value other = true

theorem Assembly.AllBelow.trans [LawfulBEq V] {assembly : Assembly V P E}
    (laws : assembly.Semilattice) {values middle others : StateMap V}
    (first : assembly.AllBelow values middle) (second : assembly.AllBelow middle others) :
    assembly.AllBelow values others := by
  intro id value found
  obtain ⟨between, foundBetween, belowBetween⟩ := first id value found
  obtain ⟨other, foundOther, belowOther⟩ := second id between foundBetween
  exact ⟨other, foundOther, laws.below_trans belowBetween belowOther⟩

theorem Assembly.AllBelow.below {assembly : Assembly V P E} {values others : StateMap V}
    (ordered : assembly.AllBelow values others) {id : StateId} {value other : V}
    (found : values[id]? = some value) (otherFound : others[id]? = some other) :
    assembly.below value other = true := by
  obtain ⟨same, sameFound, below⟩ := ordered id value found
  rw [otherFound] at sameFound
  rw [Option.some.inj sameFound]
  exact below

theorem Assembly.AllBelow.antisymm [LawfulBEq V] {assembly : Assembly V P E}
    (laws : assembly.Semilattice) {values others : StateMap V}
    (first : assembly.AllBelow values others) (second : assembly.AllBelow others values) :
    values = others := by
  apply Std.ExtTreeMap.ext_getElem?
  intro id
  cases found : values[id]? with
  | some value =>
      obtain ⟨other, otherFound, below⟩ := first id value found
      rw [otherFound, laws.below_antisymm below (second.below otherFound found)]
  | none =>
      cases otherFound : others[id]? with
      | none => rfl
      | some other =>
          obtain ⟨value, there, -⟩ := second id other otherFound
          simp [found] at there

theorem Assembly.AllBelow.insert {assembly : Assembly V P E} {values others : StateMap V}
    {id : StateId} {entry reached : V} (found : others[id]? = some reached)
    (below : assembly.below entry reached = true)
    (elsewhere : ∀ other value, other ≠ id → values[other]? = some value →
      ∃ greater, others[other]? = some greater ∧ assembly.below value greater = true) :
    assembly.AllBelow (values.insert id entry) others := by
  intro other value stored
  rw [Std.ExtTreeMap.getElem?_insert] at stored
  split at stored
  · rename_i same
    rw [Std.LawfulEqCmp.compare_eq_iff_eq] at same
    rw [← Option.some.inj stored, ← same]
    exact ⟨reached, found, below⟩
  · rename_i apart
    rw [Std.LawfulEqCmp.compare_eq_iff_eq] at apart
    exact elsewhere other value (Ne.symm apart) stored

/-- `large` has the states of `small`, its transitions and perhaps others, and for each
state and value its exit zones and perhaps others. -/
structure Machine.Within (small large : Machine V P E) : Prop where
  assembly : small.assembly.Within large.assembly
  states_iff : ∀ state, state ∈ small.states ↔ state ∈ large.states
  transitions_mem : ∀ transition ∈ small.transitions, transition ∈ large.transitions
  exits_mem : ∀ {state value zones zone}, small.exits state value = .ok zones →
    zone ∈ zones → ∃ others, large.exits state value = .ok others ∧ zone ∈ others

namespace Machine

/-- What every transition into a state other than the seed gives under `values` is
below the value of that state in `upper`. -/
def Feeds [BEq P] (machine : Machine V P E) (values upper : StateMap V) : Prop :=
  ∃ zones, machine.refreshZones values = .ok zones ∧
    ∀ transition ∈ machine.transitions, transition.target ∉ machine.seeds →
      ∃ value reached, machine.given values zones transition = .ok value ∧
        upper[transition.target]? = some reached ∧
        machine.assembly.below value reached = true

variable [LawfulBEq V] {machine small large : Machine V P E}
  {values others upper : StateMap V} {zones otherZones : ZoneMap P}

namespace Within

theorem refl (lawful : machine.Lawful) : machine.Within machine where
  assembly := .refl lawful.values.toSemilattice
  states_iff _ := Iff.rfl
  transitions_mem _ member := member
  exits_mem exiting member := ⟨_, exiting, member⟩

omit [LawfulBEq V] in
theorem mem_recomputed_iff (within : small.Within large) (state : State) :
    state ∈ small.recomputed ↔ state ∈ large.recomputed := by
  simp only [recomputed, List.mem_filter, within.states_iff]

omit [LawfulBEq V] in
theorem mem_seeds_iff (within : small.Within large) (id : StateId) :
    id ∈ small.seeds ↔ id ∈ large.seeds := by
  simp only [seeds, List.mem_map, List.mem_filter, within.states_iff]

omit [LawfulBEq V] in
theorem state?_eq (within : small.Within large) (wellFormed : small.WellFormed)
    (otherWellFormed : large.WellFormed) (id : StateId) : small.state? id = large.state? id := by
  apply Option.ext
  intro state
  rw [wellFormed.state?_eq_some_iff, otherWellFormed.state?_eq_some_iff, within.states_iff]

omit [LawfulBEq V] in
theorem exitsFor_subset (within : small.Within large) (lawful : large.Lawful) {source : State}
    {value other : V} (below : large.assembly.below value other = true)
    {exits otherExits : List (ExitZone P)} (first : small.exitsFor source value = .ok exits)
    (second : large.exitsFor source other = .ok otherExits) :
    ∀ zone ∈ exits, zone ∈ otherExits := by
  unfold exitsFor at first second
  split at first
  · -- The seed has no exit zones at all.
    obtain rfl : [] = exits := Except.ok.inj first
    simp
  · rename_i ordinary
    rw [if_neg ordinary] at second
    intro zone member
    -- The larger machine has the zone for the smaller value, hence for the greater one.
    obtain ⟨between, exitingThere, zoneThere⟩ := within.exits_mem first member
    exact lawful.exits_mono below exitingThere second zone zoneThere

variable [BEq P]

/-- A transition makes more of a greater value, also in a larger machine. -/
theorem carry_below (within : small.Within large) (lawful : large.Lawful)
    (wellFormed : small.WellFormed) (otherWellFormed : large.WellFormed)
    {transition : Transition P} {value greater next other : V}
    (below : large.assembly.below value greater = true)
    (carries : small.carry value transition = .ok next)
    (carriesMore : large.carry greater transition = .ok other) :
    large.assembly.below next other = true := by
  unfold carry at carries carriesMore
  rw [← within.state?_eq wellFormed otherWellFormed] at carriesMore
  cases lookup : small.state? transition.source with
  | none => simp [lookup] at carries
  | some source =>
      simp only [lookup, mapError_eq_ok, bind_eq_ok] at carries carriesMore
      obtain ⟨exits, exiting, contributed⟩ := carries
      obtain ⟨otherExits, otherExiting, otherContributed⟩ := carriesMore
      have included := within.exitsFor_subset lawful below exiting otherExiting
      exact lawful.values.contribute_within within.assembly below included contributed
        otherContributed

theorem given_below (within : small.Within large) (lawful : large.Lawful)
    (wellFormed : small.WellFormed) (otherWellFormed : large.WellFormed)
    (ordered : large.assembly.AllBelow values others)
    (first : small.refreshZones values = .ok zones)
    (second : large.refreshZones others = .ok otherZones)
    {transition : Transition P} (member : transition ∈ small.transitions) {value other : V}
    (gives : small.given values zones transition = .ok value)
    (otherGives : large.given others otherZones transition = .ok other) :
    large.assembly.below value other = true := by
  have otherMember := within.transitions_mem transition member
  rw [given_eq_arrival wellFormed first member, arrival_eq_ok_iff] at gives
  rw [given_eq_arrival otherWellFormed second otherMember, arrival_eq_ok_iff] at otherGives
  obtain ⟨before, found, carries⟩ := gives
  obtain ⟨otherBefore, otherFound, carriesMore⟩ := otherGives
  have below := ordered.below found otherFound
  exact within.carry_below lawful wellFormed otherWellFormed below carries carriesMore

end Within

variable [BEq P]

namespace IsPass

variable {outcome otherOutcome : PassOutcome V P}

theorem feeds (lawful : machine.Lawful) (wellFormed : machine.WellFormed)
    (isPass : machine.IsPass values outcome) : machine.Feeds values outcome.semantics := by
  refine ⟨outcome.zones, isPass.refreshed, fun transition member noSeed => ?_⟩
  obtain ⟨target, targetMem, targetId⟩ := wellFormed.exists_target member
  rw [← targetId] at noSeed ⊢
  obtain ⟨before, after, -, joined, stored, -⟩ :=
    isPass.exists_recomputed ((wellFormed.mem_recomputed_iff targetMem).mpr noSeed)
  have into : transition ∈ machine.transitions.filter (·.targets target.id) :=
    mem_filter_targets.mpr ⟨member, targetId.symm⟩
  obtain ⟨value, gives, below⟩ := lawful.values.below_joinEach joined into
  exact ⟨value, after, gives, stored, below⟩

/-- A pass stays below what a machine that is no smaller feeds, from values above those
it began with. -/
theorem below_of_feeds (within : small.Within large) (lawful : large.Lawful)
    (wellFormed : small.WellFormed) (otherWellFormed : large.WellFormed)
    (isPass : small.IsPass values outcome)
    (ordered : large.assembly.AllBelow values others) (covers : large.Covers upper)
    (feeds : large.Feeds others upper)
    (elsewhere : ∀ id, id ∉ large.recomputed.map (·.id) → upper[id]? = others[id]?) :
    large.assembly.AllBelow outcome.semantics upper := by
  obtain ⟨otherZones, otherRefreshed, fed⟩ := feeds
  intro id value found
  by_cases touched : id ∈ small.recomputed.map (·.id)
  · obtain ⟨state, member, rfl⟩ := List.mem_map.mp touched
    have isState : state ∈ small.states := List.mem_of_mem_filter member
    have noSeed : state.id ∉ small.seeds := (wellFormed.mem_recomputed_iff isState).mp member
    rw [within.mem_seeds_iff] at noSeed
    obtain ⟨before, after, -, joined, stored, -⟩ := isPass.exists_recomputed member
    obtain rfl : after = value := by
      rw [stored] at found
      exact Option.some.inj found
    have reached := Std.ExtTreeMap.getElem?_eq_some_getElem
      (covers.mem ((within.states_iff state).mp isState))
    rw [joinedAt, within.assembly.joinEach_eq] at joined
    refine ⟨_, reached, lawful.values.joinEach_below joined ?_⟩
    intro transition into contributed gives
    obtain ⟨transitionMem, targetId⟩ := mem_filter_targets.mp into
    obtain ⟨other, bound, otherGives, atTarget, below⟩ :=
      fed transition (within.transitions_mem transition transitionMem) (targetId ▸ noSeed)
    rw [targetId, reached] at atTarget
    rw [Option.some.inj atTarget]
    have grows := within.given_below lawful wellFormed otherWellFormed ordered isPass.refreshed
      otherRefreshed transitionMem gives otherGives
    exact lawful.values.below_trans grows below
  · have otherUntouched : id ∉ large.recomputed.map (·.id) := by
      simpa only [List.mem_map, within.mem_recomputed_iff] using touched
    rw [isPass.kept id touched] at found
    rw [elsewhere id otherUntouched]
    exact ordered id value found

theorem mono (within : small.Within large) (lawful : large.Lawful)
    (wellFormed : small.WellFormed) (isPass : small.IsPass values outcome)
    (otherPass : large.IsPass others otherOutcome) (anchored : large.Anchored others)
    (ordered : large.assembly.AllBelow values others) :
    large.assembly.AllBelow outcome.semantics otherOutcome.semantics :=
  isPass.below_of_feeds within lawful wellFormed anchored.wellFormed ordered
    (fun id => otherPass.mem_semantics_iff.trans (anchored.covers id))
    (otherPass.feeds lawful anchored.wellFormed) otherPass.kept

end IsPass

omit [LawfulBEq V] [BEq P] in
theorem Within.initial_below_at_seed (within : small.Within large)
    (wellFormed : large.WellFormed) {seed other : State} {initial otherInitial : V}
    (found : small.states.find? (·.isSeed) = some seed)
    (given : small.assembly.initial = .ok initial)
    (otherFound : large.states.find? (·.isSeed) = some other)
    (otherGiven : large.assembly.initial = .ok otherInitial) :
    seed.id = other.id ∧ large.assembly.below initial otherInitial = true := by
  have isSeed : seed.isSeed = true := List.find?_some found
  have member : seed ∈ large.states :=
    (within.states_iff seed).mp (List.mem_of_find?_eq_some found)
  rw [wellFormed.find?_seed member isSeed, Option.some.injEq] at otherFound
  exact ⟨congrArg (·.id) otherFound, within.assembly.initial_below given otherGiven⟩

omit [BEq P] in
theorem Within.start_below (within : small.Within large) (lawful : large.Lawful)
    (started : small.startValues = .ok values) (covers : large.Covers upper)
    (atSeed : ∀ seed initial, small.states.find? (·.isSeed) = some seed →
      small.assembly.initial = .ok initial →
        ∃ reached, upper[seed.id]? = some reached ∧
          large.assembly.below initial reached = true) :
    large.assembly.AllBelow values upper := by
  obtain ⟨seed, initial, wellFormed, found, given, rfl⟩ := startValues_eq_ok_iff.mp started
  obtain ⟨pinned, atSeed, below⟩ := atSeed seed initial found given
  apply Assembly.AllBelow.insert atSeed below
  intro id value _ stored
  obtain rfl := getElem?_bottomValues wellFormed stored
  obtain ⟨present, -⟩ := Std.ExtTreeMap.getElem?_eq_some_iff.mp stored
  obtain ⟨state, member, rfl⟩ := knows_iff.mp (mem_bottomValues.mp present)
  have reached := Std.ExtTreeMap.getElem?_eq_some_getElem
    (covers.mem ((within.states_iff state).mp member))
  rw [within.assembly.bottom_eq]
  exact ⟨_, reached, lawful.values.bottom_below _⟩

omit [BEq P] in
theorem Within.start_below_anchored (within : small.Within large) (lawful : large.Lawful)
    (started : small.startValues = .ok values) (anchored : large.Anchored others) :
    large.assembly.AllBelow values others := by
  apply within.start_below lawful started anchored.covers
  intro seed initial found given
  obtain ⟨other, otherInitial, otherFound, otherGiven, pinned⟩ := anchored.pinned
  obtain ⟨sameSeed, below⟩ :=
    within.initial_below_at_seed anchored.wellFormed found given otherFound otherGiven
  exact ⟨otherInitial, sameSeed ▸ pinned, below⟩

theorem Within.iterates_mono (within : small.Within large) (lawful : large.Lawful)
    (anchored : small.Anchored values) (otherAnchored : large.Anchored others)
    (ordered : large.assembly.AllBelow values others) {passes : Nat}
    {reached otherReached : StateMap V} (iterated : small.iterates values passes = .ok reached)
    (otherIterated : large.iterates others passes = .ok otherReached) :
    large.assembly.AllBelow reached otherReached := by
  induction passes generalizing reached otherReached with
  | zero =>
      obtain rfl : values = reached := Except.ok.inj iterated
      obtain rfl : others = otherReached := Except.ok.inj otherIterated
      exact ordered
  | succ passes ih =>
      obtain ⟨earlier, outcome, before, passed, rfl⟩ := iterates_succ_eq_ok.mp iterated
      obtain ⟨otherEarlier, otherOutcome, otherBefore, otherPassed, rfl⟩ :=
        iterates_succ_eq_ok.mp otherIterated
      have isPass := isPass_of_pass anchored.wellFormed passed
      have otherPass := isPass_of_pass otherAnchored.wellFormed otherPassed
      exact isPass.mono within lawful anchored.wellFormed otherPass
        (otherAnchored.iterates otherBefore) (ih before otherBefore)

/-- No pass leads out of what is below values to which no transition adds anything. -/
theorem Within.iterates_below_of_feeds (within : small.Within large) (lawful : large.Lawful)
    (wellFormed : small.WellFormed) (otherWellFormed : large.WellFormed)
    (covers : large.Covers upper) (feeds : large.Feeds upper upper)
    (ordered : large.assembly.AllBelow values upper) {passes : Nat} {reached : StateMap V}
    (iterated : small.iterates values passes = .ok reached) :
    large.assembly.AllBelow reached upper := by
  induction passes generalizing reached with
  | zero =>
      obtain rfl : values = reached := Except.ok.inj iterated
      exact ordered
  | succ passes ih =>
      obtain ⟨earlier, outcome, before, passed, rfl⟩ := iterates_succ_eq_ok.mp iterated
      have isPass := isPass_of_pass wellFormed passed
      exact isPass.below_of_feeds within lawful wellFormed otherWellFormed (ih before) covers
        feeds fun _ _ => rfl

/-- When a machine is solved, no value ever shrinks from one pass to the next. -/
theorem Lawful.iterates_grow (lawful : machine.Lawful)
    (started : machine.startValues = .ok values) {passes : Nat} {earlier later : StateMap V}
    (reached : machine.iterates values passes = .ok earlier)
    (reachedNext : machine.iterates values (passes + 1) = .ok later) :
    machine.assembly.AllBelow earlier later := by
  have anchored := anchored_of_startValues started
  induction passes generalizing earlier later with
  | zero =>
      obtain rfl : values = earlier := by simpa [iterates] using reached
      exact (Within.refl lawful).start_below_anchored lawful started
        (anchored.iterates reachedNext)
  | succ passes ih =>
      obtain ⟨before, outcome, reachedBefore, passed, rfl⟩ := iterates_succ_eq_ok.mp reached
      obtain ⟨_, nextOutcome, sameReached, nextPassed, rfl⟩ :=
        iterates_succ_eq_ok.mp reachedNext
      obtain rfl : outcome.semantics = _ := Except.ok.inj (reached.symm.trans sameReached)
      have isPass := isPass_of_pass anchored.wellFormed passed
      have nextPass := isPass_of_pass anchored.wellFormed nextPassed
      exact isPass.mono (.refl lawful) lawful anchored.wellFormed nextPass
        (anchored.iterates reached) (ih reachedBefore reached)

end Machine
end ReactiveReach
