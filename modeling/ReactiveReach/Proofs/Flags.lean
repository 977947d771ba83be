import ReactiveReach.Proofs.Distribution
import ReactiveReach.Samples.Ladder

/-!
# Flags obey the laws

One set of flags is below another exactly if it is included in it, flag by flag.
Read so, the laws of values hold for every assembly over flags, whatever its tables
say: a step that removes and adds flags keeps inclusion, and a step that is unknown
is unknown for every value.
-/

namespace ReactiveReach.Samples

def hasFlag (flags : UInt32) (flag : Nat) : Bool :=
  flags.toBitVec.getLsbD flag

@[simp]
theorem hasFlag_and (a b : UInt32) (flag : Nat) :
    hasFlag (a &&& b) flag = (hasFlag a flag && hasFlag b flag) := by
  simp [hasFlag]

@[simp]
theorem hasFlag_or (a b : UInt32) (flag : Nat) :
    hasFlag (a ||| b) flag = (hasFlag a flag || hasFlag b flag) := by
  simp [hasFlag]

theorem eq_of_hasFlag {a b : UInt32} (same : ∀ flag, hasFlag a flag = hasFlag b flag) :
    a = b :=
  UInt32.toBitVec_inj.mp (BitVec.eq_of_getLsbD_eq fun flag _ => same flag)

/-- Joining a set of flags to another adds nothing exactly if it is included. -/
theorem or_eq_right_iff {a b : UInt32} :
    a ||| b = b ↔ ∀ flag, hasFlag a flag = true → hasFlag b flag = true := by
  constructor
  · intro joined flag inFirst
    rw [← joined, hasFlag_or, inFirst, Bool.true_or]
  · intro included
    refine eq_of_hasFlag fun flag => ?_
    rw [hasFlag_or]
    cases inFirst : hasFlag a flag with
    | false => rfl
    | true => rw [included flag inFirst, Bool.true_or]

theorem and_mono {a b c d : UInt32} (first : a ||| b = b) (second : c ||| d = d) :
    (a &&& c) ||| (b &&& d) = b &&& d := by
  rw [or_eq_right_iff] at first second ⊢
  intro flag both
  rw [hasFlag_and, Bool.and_eq_true] at both ⊢
  exact ⟨first flag both.1, second flag both.2⟩

/-- Flags that meet a condition still meet it when there are more of them. -/
theorem and_ne_zero_mono {a b : UInt32} (included : a ||| b = b) (condition : UInt32)
    (meets : (a &&& condition != 0) = true) : (b &&& condition != 0) = true := by
  rw [bne_iff_ne] at meets ⊢
  intro none
  have less := and_mono included (UInt32.or_self (a := condition))
  rw [none, UInt32.or_zero] at less
  exact meets less

theorem Remap.apply_mono (remap : Remap) {a b : UInt32} (included : a ||| b = b) :
    remap.apply a ||| remap.apply b = remap.apply b := by
  by_cases noFlag : a = 0
  · simp [Remap.apply, noFlag]
  · have someFlag : b ≠ 0 := by
      rintro rfl
      rw [UInt32.or_zero] at included
      exact noFlag included
    simp only [Remap.apply, noFlag, someFlag, if_false]
    have kept := and_mono included (UInt32.or_self (a := ~~~remap.remove))
    rw [or_eq_right_iff] at kept ⊢
    intro flag present
    rw [hasFlag_or, Bool.or_eq_true] at present ⊢
    exact present.imp_left (kept flag)

/-- A step treats every flag on its own, once there is one. -/
theorem Remap.apply_or (remap : Remap) (a b : UInt32) :
    remap.apply (a ||| b) = remap.apply a ||| remap.apply b := by
  by_cases noFirst : a = 0
  · simp [Remap.apply, noFirst]
  by_cases noSecond : b = 0
  · simp [Remap.apply, noSecond]
  have someFlag : a ||| b ≠ 0 := by
    rw [Ne, UInt32.or_eq_zero_iff]
    exact fun none => noFirst none.1
  apply eq_of_hasFlag
  intro flag
  simp only [Remap.apply, noFirst, noSecond, someFlag, if_false, hasFlag_or, hasFlag_and,
    Bool.and_or_distrib_right]
  cases hasFlag remap.add flag <;> simp

theorem or_and_distrib (a b c : UInt32) : (a ||| b) &&& c = (a &&& c) ||| (b &&& c) := by
  apply eq_of_hasFlag
  intro flag
  simp only [hasFlag_or, hasFlag_and, Bool.and_or_distrib_right]

namespace BitTables

variable (tables : BitTables)

theorem below_iff {a b : UInt32} : tables.assembly.below a b = true ↔ a ||| b = b :=
  Assembly.below_iff

/-- Whether a step can be fired depends on the table alone. -/
theorem fire_eq_ok_iff {submachine : SubmachineId} {step : StepId} {flags next : UInt32} :
    tables.assembly.fire submachine step flags = .ok next ↔
      ∃ remap, tables.transitions.find? submachine step = some remap ∧
        remap.apply flags = next := by
  simp only [assembly]
  cases tables.transitions.find? submachine step <;> simp

theorem deliver_eq_ok_iff {submachine : SubmachineId} {event : EventId} {flags next : UInt32} :
    tables.assembly.deliver submachine event flags = .ok next ↔
      ∃ remap, tables.events.find? submachine event = some remap ∧
        remap.apply flags = next := by
  simp only [assembly]
  cases tables.events.find? submachine event <;> simp

theorem lawful : tables.assembly.Lawful where
  bottom_join _ := UInt32.zero_or
  join_assoc := UInt32.or_assoc
  join_comm := UInt32.or_comm
  join_idem _ := UInt32.or_self
  meet_mono first second := by
    rw [below_iff] at first second ⊢
    exact and_mono first second
  fire_mono ordered first second := by
    rw [below_iff] at ordered ⊢
    obtain ⟨remap, listed, rfl⟩ := tables.fire_eq_ok_iff.mp first
    obtain ⟨same, sameListed, rfl⟩ := tables.fire_eq_ok_iff.mp second
    rw [listed, Option.some.injEq] at sameListed
    rw [← sameListed]
    exact remap.apply_mono ordered
  deliver_mono ordered first second := by
    rw [below_iff] at ordered ⊢
    obtain ⟨remap, listed, rfl⟩ := tables.deliver_eq_ok_iff.mp first
    obtain ⟨same, sameListed, rfl⟩ := tables.deliver_eq_ok_iff.mp second
    rw [listed, Option.some.injEq] at sameListed
    rw [← sameListed]
    exact remap.apply_mono ordered

/-- An operation that is one and the same step for all flags distributes. -/
theorem distributes_of_remap {operation : UInt32 → Except BitError UInt32} {found : Option Remap}
    (steps : ∀ {flags next}, operation flags = .ok next ↔
      ∃ remap, found = some remap ∧ remap.apply flags = next) :
    tables.assembly.Distributes operation where
  of_bottom result := by
    obtain ⟨remap, -, rfl⟩ := steps.mp result
    rfl
  of_join left right both := by
    obtain ⟨remap, rfl, rfl⟩ := steps.mp both
    obtain ⟨_, ⟨⟩, rfl⟩ := steps.mp left
    obtain ⟨_, ⟨⟩, rfl⟩ := steps.mp right
    exact remap.apply_or _ _

theorem distributive : tables.assembly.Distributive where
  toSemilattice := tables.lawful.toSemilattice
  meet_distributes {_ meaning} _ := {
    of_bottom := by
      rintro _ ⟨⟩
      exact UInt32.zero_and
    of_join := by
      rintro a b _ _ _ ⟨⟩ ⟨⟩ ⟨⟩
      exact or_and_distrib a b meaning }
  fire_distributes _ _ := tables.distributes_of_remap tables.fire_eq_ok_iff
  deliver_distributes _ _ := tables.distributes_of_remap tables.deliver_eq_ok_iff

end BitTables

theorem ladder_wellFormed : ladder.WellFormed :=
  Machine.violations_eq_nil_iff.mp (by decide)

theorem ladder_lawful : ladder.Lawful where
  values := lift.lawful
  exits_mono {_ v w zones others} ordered first second zone member := by
    have included : v ||| w = w := lift.below_iff.mp ordered
    simp only [ladder, liftZones, Except.ok.injEq] at first second
    rw [← first, List.mem_append] at member
    rw [← second, List.mem_append]
    refine member.imp (fun up => ?_) fun up => ?_
    · split at up
      · rename_i meets
        rwa [if_pos (and_ne_zero_mono included _ meets)]
      · simp at up
    · split at up
      · rename_i meets
        rwa [if_pos (and_ne_zero_mono included _ meets)]
      · simp at up

theorem zoneWhen_mono {E : Type} {condition : UInt32} {zone : ExitZone UInt32} {state : State}
    {a b : UInt32} (included : a ||| b = b) {zones others : List (ExitZone UInt32)}
    (first : (zoneWhen condition zone state a : Except E _) = .ok zones)
    (second : (zoneWhen condition zone state b : Except E _) = .ok others) :
    ∀ exit ∈ zones, exit ∈ others := by
  intro exit member
  simp only [zoneWhen, Except.ok.injEq] at first second
  rw [← first] at member
  rw [← second]
  split at member
  · rename_i meets
    rwa [if_pos (and_ne_zero_mono included condition meets)]
  · simp at member

theorem widerLadder_lawful : widerLadder.Lawful where
  values := BitTables.lawful _
  exits_mono {state v w zones others} ordered first second zone member := by
    have included : v ||| w = w := (BitTables.below_iff _).mp ordered
    simp only [widerLadder, bind_eq_ok, pure_eq_ok] at first second
    obtain ⟨lifts, lifting, doors, opening, rfl⟩ := first
    obtain ⟨otherLifts, otherLifting, otherDoors, otherOpening, rfl⟩ := second
    have lifted : ladder.exits state v = .ok lifts := lifting
    rw [List.mem_append] at member ⊢
    apply member.imp
    · exact ladder_lawful.exits_mono ordered lifted otherLifting zone
    · exact zoneWhen_mono included opening otherOpening zone

end ReactiveReach.Samples
