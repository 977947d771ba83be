import ReactiveReach.Proofs.FixedPoint
import ReactiveReach.Proofs.Flags
import ReactiveReach.Proofs.Locality

/-!
# States that nothing reaches

A state to which no path leads from the seed may still have transitions into it, from
other such states, and exit zones of its own. As long as no operation makes something
of bottom, nothing ever arrives there: every pass finds bottom at the sources of the
transitions into it, joins bottom with bottom, and has nothing to change.
-/

namespace ReactiveReach

variable {V P E : Type}

/-- Operations that make nothing of bottom, where they succeed. -/
structure Assembly.Strict (assembly : Assembly V P E) : Prop where
  join_bottom : assembly.join assembly.bottom assembly.bottom = assembly.bottom
  bottom_meet : ∀ value, assembly.meet assembly.bottom value = assembly.bottom
  fire_bottom : ∀ {submachine step value},
    assembly.fire submachine step assembly.bottom = .ok value → value = assembly.bottom
  deliver_bottom : ∀ {submachine event value},
    assembly.deliver submachine event assembly.bottom = .ok value → value = assembly.bottom

namespace Assembly.Strict

variable {assembly : Assembly V P E} {value : V}

theorem joinEach {α ε : Type} (strict : assembly.Strict) {give : α → Except ε V}
    {members : List α}
    (each : ∀ member ∈ members, ∀ value, give member = .ok value → value = assembly.bottom)
    (folded : assembly.joinEach give members = .ok value) : value = assembly.bottom := by
  obtain ⟨values, mapped, rfl⟩ := joinEach_eq_ok_iff.mp folded
  have bottoms : ∀ value ∈ values, value = assembly.bottom := by
    intro value member
    obtain ⟨giver, giverMem, given⟩ := (mem_iff_of_mapM_eq_ok mapped).mp member
    exact each giver giverMem value given
  clear mapped folded
  induction values with
  | nil => rfl
  | cons value values ih =>
      rw [List.forall_mem_cons] at bottoms
      rw [List.foldl_cons, bottoms.1, strict.join_bottom]
      exact ih bottoms.2

theorem deliverAll (strict : assembly.Strict) {actions : List Action}
    (delivered : assembly.deliverAll actions assembly.bottom = .ok value) :
    value = assembly.bottom := by
  induction actions with
  | nil => exact (Except.ok.inj delivered).symm
  | cons action actions ih =>
      simp only [Assembly.deliverAll, List.foldlM_cons, bind_eq_ok] at delivered
      obtain ⟨middle, first, rest⟩ := delivered
      rw [strict.deliver_bottom first] at rest
      exact ih rest

variable [BEq P]

theorem contribute (strict : assembly.Strict) {transition : Transition P} {source : State}
    {zones : List (ExitZone P)}
    (contributed : transition.contribute assembly source assembly.bottom zones = .ok value) :
    value = assembly.bottom := by
  simp only [Transition.contribute, bind_eq_ok] at contributed
  obtain ⟨passing, fired, delivered⟩ := contributed
  have nothing : passing = assembly.bottom := by
    unfold Transition.fired at fired
    split at fired
    · simp only [bind_eq_ok, pure_eq_ok] at fired
      obtain ⟨guard, -, rfl⟩ := fired
      exact strict.bottom_meet guard
    · exact strict.joinEach (fun zone _ _ => strict.fire_bottom) fired
  rw [nothing] at delivered
  exact strict.deliverAll delivered

end Assembly.Strict

namespace Machine

/-- The ids to which some path of transitions leads from the seed. -/
inductive Reachable (machine : Machine V P E) : StateId → Prop where
  | seed {id : StateId} : id ∈ machine.seeds → Reachable machine id
  | step {transition : Transition P} :
      Reachable machine transition.source → transition ∈ machine.transitions →
      Reachable machine transition.target

/-- The states to which no path leads have value bottom. -/
def BottomOffPaths (machine : Machine V P E) (values : StateMap V) : Prop :=
  ∀ state ∈ machine.states, ¬ machine.Reachable state.id →
    values[state.id]? = some machine.assembly.bottom

variable {machine : Machine V P E} {values : StateMap V}

/-- Ids that hold the seed, and the target of a transition if they hold its source, are
all that can be reached. -/
theorem Reachable.mem_of_closed {ids : List StateId} (seeds : ∀ id ∈ machine.seeds, id ∈ ids)
    (closed : ∀ transition ∈ machine.transitions, transition.source ∈ ids →
      transition.target ∈ ids) {id : StateId} (reachable : machine.Reachable id) : id ∈ ids := by
  induction reachable with
  | seed isSeed => exact seeds _ isSeed
  | step _ member ih => exact closed _ member ih

theorem mem_recomputed_of_unreachable (wellFormed : machine.WellFormed) {state : State}
    (member : state ∈ machine.states) (unreachable : ¬ machine.Reachable state.id) :
    state ∈ machine.recomputed :=
  (wellFormed.mem_recomputed_iff member).mpr fun isSeed => unreachable (.seed isSeed)

theorem bottomOffPaths_of_startValues (started : machine.startValues = .ok values) :
    machine.BottomOffPaths values := by
  have wellFormed := (anchored_of_startValues started).wellFormed
  intro state member unreachable
  exact getElem?_startValues started (mem_recomputed_of_unreachable wellFormed member unreachable)

variable [BEq P]

/-- What arrives at a state off all paths comes from others that have bottom. -/
theorem BottomOffPaths.joinedAt (offPaths : machine.BottomOffPaths values)
    (strict : machine.assembly.Strict) (wellFormed : machine.WellFormed) {zones : ZoneMap P}
    (refreshed : machine.refreshZones values = .ok zones) {id : StateId}
    (unreachable : ¬ machine.Reachable id) {joined : V}
    (folded : machine.joinedAt values zones id = .ok joined) :
    joined = machine.assembly.bottom := by
  rw [joinedAt_eq_arrivals wellFormed refreshed] at folded
  refine strict.joinEach (fun transition into value arrived => ?_) folded
  obtain ⟨member, rfl⟩ := mem_filter_targets.mp into
  obtain ⟨source, sourceMem, sourceId, lookup⟩ := wellFormed.exists_source member
  -- A path to the source would go on to the state itself.
  have sourceUnreachable : ¬ machine.Reachable source.id := fun reachable =>
    unreachable (.step (sourceId ▸ reachable) member)
  obtain ⟨before, found, carried⟩ := arrival_eq_ok_iff.mp arrived
  rw [← sourceId, offPaths source sourceMem sourceUnreachable, Option.some.injEq] at found
  simp only [carry, lookup, mapError_eq_ok, bind_eq_ok, ← found] at carried
  obtain ⟨exits, -, contributed⟩ := carried
  exact strict.contribute contributed

variable [BEq V] [LawfulBEq V]

theorem BottomOffPaths.pass (offPaths : machine.BottomOffPaths values)
    (strict : machine.assembly.Strict) (wellFormed : machine.WellFormed)
    {outcome : PassOutcome V P} (isPass : machine.IsPass values outcome) :
    machine.BottomOffPaths outcome.semantics ∧
      ∀ state ∈ machine.states, ¬ machine.Reachable state.id → state.id ∉ outcome.changed := by
  have each : ∀ state ∈ machine.states, ¬ machine.Reachable state.id →
      outcome.semantics[state.id]? = some machine.assembly.bottom ∧
        state.id ∉ outcome.changed := by
    intro state member unreachable
    obtain ⟨before, after, found, joined, stored, changed⟩ := isPass.exists_recomputed
      (mem_recomputed_of_unreachable wellFormed member unreachable)
    obtain rfl := offPaths.joinedAt strict wellFormed isPass.refreshed unreachable joined
    rw [offPaths state member unreachable, Option.some.injEq] at found
    exact ⟨stored, fun listed => changed.mp listed found⟩
  exact ⟨fun state member unreachable => (each state member unreachable).1,
    fun state member unreachable => (each state member unreachable).2⟩

theorem BottomOffPaths.iterates (offPaths : machine.BottomOffPaths values)
    (strict : machine.assembly.Strict) (wellFormed : machine.WellFormed) {passes : Nat}
    {reached : StateMap V} (iterated : machine.iterates values passes = .ok reached) :
    machine.BottomOffPaths reached := by
  induction passes generalizing reached with
  | zero =>
      obtain rfl : values = reached := Except.ok.inj iterated
      exact offPaths
  | succ passes ih =>
      obtain ⟨earlier, outcome, before, passed, rfl⟩ := iterates_succ_eq_ok.mp iterated
      exact ((ih before).pass strict wellFormed (isPass_of_pass wellFormed passed)).1

/-- Where no operation makes something of bottom, a state to which no path leads from the
seed has value bottom however many passes were made, and none of them has changed it. -/
theorem unreachable_stays_bottom (strict : machine.assembly.Strict) {solver : Solver}
    {solution : Solution V P} (solved : (solver.solve machine).result = .ok solution)
    {state : State} (member : state ∈ machine.states)
    (unreachable : ¬ machine.Reachable state.id) :
    solution.semantics[state.id]? = some machine.assembly.bottom ∧
      ∀ entry ∈ solution.history.toList, state.id ∉ entry.changed := by
  obtain ⟨values, started, ended⟩ := solve_eq_ok_iff.mp solved
  have wellFormed := (anchored_of_startValues started).wellFormed
  have atStart := bottomOffPaths_of_startValues started
  obtain ⟨last, -, rfl, reaches, -⟩ := runFrom_eq_ok solver.cap_pos ended
  refine ⟨atStart.iterates strict wellFormed reaches.iterates_eq state member unreachable, ?_⟩
  intro entry listed
  obtain ⟨passes, earlier, outcome, rfl, -, iterated, passed⟩ :=
    reaches.exists_of_mem_history listed
  have before := atStart.iterates strict wellFormed iterated
  exact (before.pass strict wellFormed (isPass_of_pass wellFormed passed)).2 state member
    unreachable

end Machine

theorem Samples.BitTables.strict (tables : BitTables) : tables.assembly.Strict where
  join_bottom := UInt32.or_self
  bottom_meet _ := UInt32.zero_and
  fire_bottom fired := by
    obtain ⟨remap, -, rfl⟩ := tables.fire_eq_ok_iff.mp fired
    rfl
  deliver_bottom delivered := by
    obtain ⟨remap, -, rfl⟩ := tables.deliver_eq_ok_iff.mp delivered
    rfl

namespace Machine

theorem island_stays_bottom : ∃ solution,
    (Solver.standard.solve Samples.ladderWithIsland).result = .ok solution ∧
      solution.convergence = .converged ∧ (solution.zonesOf "D").length = 2 ∧
      solution.semantics["A"]? = some 0b0111 ∧ solution.semantics["D"]? = some 0 ∧
      ∀ entry ∈ solution.history.toList, "D" ∉ entry.changed := by
  obtain ⟨solution, solved, converged, exits, gathered⟩ : ∃ solution,
      (Solver.standard.solve Samples.ladderWithIsland).result = .ok solution ∧
        solution.convergence = .converged ∧ (solution.zonesOf "D").length = 2 ∧
          solution.semantics["A"]? = some 0b0111 :=
    exists_ok_of_any (by decide +kernel)
  have onIsland : State.ordinary "D" ∈ Samples.ladderWithIsland.states := by decide
  have offPaths : ¬ Samples.ladderWithIsland.Reachable "D" := by
    intro reachable
    have onLadder : "D" ∈ ["Seed", "A", "B", "C"] :=
      reachable.mem_of_closed (by decide) (by decide)
    simp at onLadder
  obtain ⟨atBottom, unlisted⟩ :=
    unreachable_stays_bottom Samples.lift.strict solved onIsland offPaths
  exact ⟨solution, solved, converged, exits, gathered, atBottom, unlisted⟩

end Machine
end ReactiveReach
