import ReactiveReach.Proofs.Height

/-!
# Machines over flags come to rest

An assembly over flags meets every law that is asked of values, whatever is in its tables,
and the rule that gives a state one exit zone gives it no less when it has more flags. There
are only 32 flags, so a machine over them comes to rest within a number of passes that its
states determine, and at the least closed values. The one thing that can get in the way is
a step or an event that the tables do not list.
-/

namespace ReactiveReach

namespace Machine

variable {V P E : Type} [BEq V] [BEq P]

/-- Solving comes to rest within so many passes, at the least closed values. -/
structure RestsWithin (machine : Machine V P E) (solver : Solver) (passes : Nat)
    (solution : Solution V P) : Prop where
  solved : (solver.solve machine).result = .ok solution
  converged : solution.convergence = .converged
  within : solution.iterations ≤ passes
  closed : machine.Closed solution.semantics
  least : ∀ closed, machine.Closed closed →
    machine.assembly.AllBelow solution.semantics closed

theorem Lawful.restsWithin [LawfulBEq V] {machine : Machine V P E} (lawful : machine.Lawful)
    {height : Nat} (bounded : machine.assembly.HeightAtMost height) {solver : Solver}
    (enough : height * (machine.states.length - 1) + 1 ≤ solver.cap) {solution : Solution V P}
    (solved : (solver.solve machine).result = .ok solution) :
    machine.RestsWithin solver (height * (machine.states.length - 1) + 1) solution := by
  obtain ⟨values, started, ended⟩ := solve_eq_ok_iff.mp solved
  have anchored := anchored_of_startValues started
  obtain ⟨last, -, rfl, reaches, -, -, usesUp⟩ := runFrom_eq_ok solver.cap_pos ended
  have changes := reaches.totalChanges_le lawful started bounded
  have passes : last.passes ≤ last.history.totalChanges + last.settled.toNat := reaches.passes_le
  have settled : last.settled = true := by
    by_contra unsettled
    rw [Bool.not_eq_true] at unsettled
    have := usesUp unsettled
    rw [unsettled, Bool.toNat_false] at passes
    omega
  rw [settled, Bool.toNat_true] at passes
  exact {
    solved
    converged := Progress.solution_isConverged.mpr settled
    within := passes.trans (Nat.succ_le_succ changes)
    closed := reaches.closed lawful anchored settled
    least := fun upper closed => closed.above_iterates (.refl lawful) lawful
      anchored.wellFormed started reaches.iterates_eq }

end Machine

namespace Samples

namespace EffectTable

variable {F : Type}

/-- The entry that counts under a sub-machine and a name: no later one is listed there. -/
def LastListed (table : EffectTable F) (submachine : SubmachineId) (name : String)
    (effect : F) : Prop :=
  ∃ earlier later, table = earlier ++ ((submachine, name), effect) :: later ∧
    ∀ entry ∈ later, entry.1 ≠ (submachine, name)

def Unlisted (table : EffectTable F) (submachine : SubmachineId) (name : String) : Prop :=
  ∀ entry ∈ table, entry.1 ≠ (submachine, name)

variable {table : EffectTable F} {submachine : SubmachineId} {name : String}

theorem find?_eq_some_iff {effect : F} :
    table.find? submachine name = some effect ↔ table.LastListed submachine name effect := by
  simp only [find?, List.lookup_eq_some_iff, bne_iff_ne, ne_eq, LastListed]
  constructor
  · rintro ⟨later, earlier, reversed, unlisted⟩
    refine ⟨earlier.reverse, later.reverse, ?_, fun entry member same => ?_⟩
    · rw [← List.reverse_inj, reversed]
      simp
    · exact unlisted entry (List.mem_reverse.mp member) same.symm
  · rintro ⟨earlier, later, rfl, unlisted⟩
    refine ⟨later.reverse, earlier.reverse, by simp, fun entry member same => ?_⟩
    exact unlisted entry (List.mem_reverse.mp member) same.symm

theorem find?_eq_none_iff :
    table.find? submachine name = none ↔ table.Unlisted submachine name := by
  simp only [find?, List.lookup_eq_none_iff, List.mem_reverse, bne_iff_ne]
  exact forall₂_congr fun entry _ => ne_comm

end EffectTable

/-- An operation does to every set of flags what the entry of a table says that counts under
the sub-machine and the name, and fails where none is listed. -/
structure FollowsTable (table : EffectTable Remap) (unknown : SubmachineId → String → BitError)
    (operation : SubmachineId → String → UInt32 → Except BitError UInt32) : Prop where
  ok_iff : ∀ submachine name flags next, operation submachine name flags = .ok next ↔
    ∃ remap, table.LastListed submachine name remap ∧ next = remap.apply flags
  error_iff : ∀ submachine name flags failure, operation submachine name flags = .error failure ↔
    table.Unlisted submachine name ∧ failure = unknown submachine name
  succeeds_iff : ∀ submachine name flags, (∃ next, operation submachine name flags = .ok next) ↔
    ¬table.Unlisted submachine name

theorem followsTable_of_find? {table : EffectTable Remap}
    {unknown : SubmachineId → String → BitError}
    {operation : SubmachineId → String → UInt32 → Except BitError UInt32}
    (looksUp : ∀ submachine name flags, operation submachine name flags =
      match table.find? submachine name with
      | some remap => .ok (remap.apply flags)
      | none => .error (unknown submachine name)) :
    FollowsTable table unknown operation := by
  refine ⟨fun submachine name flags next => ?_, fun submachine name flags failure => ?_,
    fun submachine name flags => ?_⟩
  all_goals
    simp only [looksUp, ← EffectTable.find?_eq_some_iff, ← EffectTable.find?_eq_none_iff]
    cases table.find? submachine name <;> simp [eq_comm]

namespace BitTables

/-- An operation was asked for a step or an event that the tables do not list. -/
inductive NotListed (tables : BitTables) : BitError → Prop
  | step {submachine : SubmachineId} {step : StepId} :
      tables.transitions.Unlisted submachine step →
      NotListed tables (.unknownTransition submachine step)
  | event {submachine : SubmachineId} {event : EventId} :
      tables.events.Unlisted submachine event →
      NotListed tables (.unknownEvent submachine event)

variable (tables : BitTables)

theorem fire_followsTable :
    FollowsTable tables.transitions .unknownTransition tables.assembly.fire :=
  followsTable_of_find? fun _ _ _ => rfl

theorem deliver_followsTable :
    FollowsTable tables.events .unknownEvent tables.assembly.deliver :=
  followsTable_of_find? fun _ _ _ => rfl

end BitTables

/-- The machine is over the flags of some tables, and each of its states has a rule for one
exit zone, or none. -/
structure OverFlags (tables : BitTables) (machine : Machine UInt32 UInt32 BitError) : Prop where
  assembly : machine.assembly = tables.assembly
  exits : ∀ state, (machine.exits state = fun _ => .ok []) ∨
    ∃ condition zone, machine.exits state = zoneWhen condition zone state

namespace OverFlags

variable {tables : BitTables} {machine : Machine UInt32 UInt32 BitError}

theorem lawful (overFlags : OverFlags tables machine) : machine.Lawful where
  values := overFlags.assembly ▸ tables.lawful
  exits_mono {state v w zones others} ordered first second := by
    rcases overFlags.exits state with noRule | ⟨condition, zone, rule⟩
    · rw [noRule, Except.ok.injEq] at first
      simp [← first]
    · rw [rule] at first second
      rw [overFlags.assembly, tables.below_iff] at ordered
      exact zoneWhen_mono ordered first second

theorem operationsFailOnly (overFlags : OverFlags tables machine) :
    machine.OperationsFailOnly tables.NotListed where
  initial := overFlags.assembly ▸ .ok tables.initial
  fire submachine step flags failure failed := by
    rw [overFlags.assembly, tables.fire_followsTable.error_iff] at failed
    obtain ⟨unlisted, rfl⟩ := failed
    exact .step unlisted
  deliver submachine event flags failure failed := by
    rw [overFlags.assembly, tables.deliver_followsTable.error_iff] at failed
    obtain ⟨unlisted, rfl⟩ := failed
    exact .event unlisted
  meaning predicate := overFlags.assembly ▸ .ok predicate
  exits state flags := by
    rcases overFlags.exits state with noRule | ⟨condition, zone, rule⟩
    · rw [noRule]
      exact .ok []
    · rw [rule]
      exact .ok _

end OverFlags

/-- What analysing a machine asks of values holds for every assembly over flags: its
operations are those of sets of flags, are lawful, and fail for a step or an event just if
the tables do not list it, whatever the flags are. Solving a machine over it that is allowed
a pass for every flag of every state but the seed, and one more, therefore comes to rest at
the least closed values, unless it fails because something is not listed. The standard
solver allows that many passes to machines with up to 32 states. -/
theorem flag_machines_rest (tables : BitTables) :
    (tables.assembly.Lawful ∧ ∀ a b, tables.assembly.below a b = true ↔
      ∀ flag, hasFlag a flag = true → hasFlag b flag = true) ∧
    FollowsTable tables.transitions .unknownTransition tables.assembly.fire ∧
    FollowsTable tables.events .unknownEvent tables.assembly.deliver ∧
    (∀ condition zone state a b, tables.assembly.below a b = true → ∃ zones others,
      (zoneWhen condition zone state a : Except BitError _) = .ok zones ∧
        (zoneWhen condition zone state b : Except BitError _) = .ok others ∧ zones ⊆ others) ∧
    ∀ machine, OverFlags tables machine → machine.WellFormed →
      (machine.states.length ≤ 32 →
        32 * (machine.states.length - 1) + 1 ≤ Solver.standard.cap) ∧
      ∀ solver : Solver, 32 * (machine.states.length - 1) + 1 ≤ solver.cap →
        (∃ cause, tables.NotListed cause ∧
          (solver.solve machine).result = .error (.failed (.operation cause))) ∨
        ∃ solution,
          machine.RestsWithin solver (32 * (machine.states.length - 1) + 1) solution := by
  refine ⟨⟨tables.lawful, fun a b => tables.below_iff.trans or_eq_right_iff⟩,
    tables.fire_followsTable, tables.deliver_followsTable, ?_, ?_⟩
  · intro condition zone state a b ordered
    have first : (zoneWhen condition zone state a : Except BitError _) = .ok _ := rfl
    have second : (zoneWhen condition zone state b : Except BitError _) = .ok _ := rfl
    exact ⟨_, _, first, second, zoneWhen_mono (tables.below_iff.mp ordered) first second⟩
  · intro machine overFlags wellFormed
    have standardCap : Solver.standard.cap = 1000 := by decide
    refine ⟨fun few => by omega, fun solver enough => ?_⟩
    cases solved : (solver.solve machine).result with
    | error failure =>
        obtain ⟨cause, rfl, notListed⟩ :=
          wellFormed.solve_failsOnly overFlags.operationsFailOnly solver failure solved
        exact .inl ⟨cause, notListed, rfl⟩
    | ok solution =>
        have bounded : machine.assembly.HeightAtMost 32 :=
          overFlags.assembly ▸ tables.heightAtMost
        exact .inr ⟨solution, overFlags.lawful.restsWithin bounded enough solved⟩

theorem plainLadder_rests :
    (∃ solution, (plainLadder "up1").RestsWithin Solver.standard 97 solution) ∧
      (Solver.standard.solve (plainLadder "jam")).result =
        .error (.failed (.operation (.unknownTransition "lift" "jam"))) ∧
      lift.NotListed (.unknownTransition "lift" "jam") := by
  have overFlags (step : StepId) : OverFlags lift (plainLadder step) :=
    ⟨rfl, fun _ => .inr ⟨_, _, rfl⟩⟩
  have wellFormed (step : StepId) : (plainLadder step).WellFormed :=
    ⟨ladder_wellFormed.one_seed, ladder_wellFormed.distinct_ids, ladder_wellFormed.sources_known,
      ladder_wellFormed.targets_known⟩
  obtain ⟨-, -, -, -, rests⟩ := flag_machines_rest lift
  have outcome (step : StepId) := (rests _ (overFlags step) (wellFormed step)).2 Solver.standard
    (by decide : 32 * (4 - 1) + 1 ≤ Solver.standard.cap)
  have jammed : (Solver.standard.solve (plainLadder "jam")).result =
      .error (.failed (.operation (.unknownTransition "lift" "jam"))) :=
    eq_error_of_computed (by decide +kernel)
  refine ⟨?_, jammed, ?_⟩
  · rcases outcome "up1" with ⟨cause, -, failed⟩ | rested
    · obtain ⟨solution, solved⟩ : ∃ solution,
          (Solver.standard.solve (plainLadder "up1")).result = .ok solution :=
        exists_ok_of_isSome (by decide +kernel)
      rw [solved] at failed
      cases failed
    · exact rested
  · rcases outcome "jam" with ⟨cause, notListed, failed⟩ | ⟨solution, rested⟩
    · rw [jammed] at failed
      cases failed
      exact notListed
    · have impossible := jammed.symm.trans rested.solved
      cases impossible

end Samples
end ReactiveReach
