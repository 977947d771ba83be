import ReactiveReach.Proofs.Flags
import ReactiveReach.Proofs.Reordering

/-!
# What a contribution depends on

Over lawful values a transition gives more to its target where its source has more
configurations and more exit zones. Of the zones only the set matters, neither their
order nor how often one is listed. Before the actions, a reactive transition passes on
the least value that is above all images of its source's value under zones that its
guard admits.
-/

namespace ReactiveReach

variable {V P E : Type} [BEq V]

/-- The least of the values that are above all values of some kind. -/
structure Assembly.IsJoinOf (assembly : Assembly V P E) (parts : V → Prop) (joined : V) :
    Prop where
  above : ∀ part, parts part → assembly.below part joined = true
  least : ∀ upper, (∀ part, parts part → assembly.below part upper = true) →
    assembly.below joined upper = true

namespace Assembly

variable [LawfulBEq V] {assembly : Assembly V P E}

theorem IsJoinOf.unique (laws : assembly.Semilattice) {parts : V → Prop} {joined other : V}
    (isJoin : assembly.IsJoinOf parts joined) (otherIsJoin : assembly.IsJoinOf parts other) :
    joined = other :=
  laws.below_antisymm (isJoin.least other otherIsJoin.above)
    (otherIsJoin.least joined isJoin.above)

namespace Semilattice

/-- Joining in order succeeds if all parts are there, and then gives their join. -/
theorem joinEach_eq_ok_iff_isJoinOf (laws : assembly.Semilattice) {α ε : Type}
    {give : α → Except ε V} {members : List α} {joined : V} :
    assembly.joinEach give members = .ok joined ↔
      (∀ member ∈ members, ∃ part, give member = .ok part) ∧
        assembly.IsJoinOf (fun part => ∃ member ∈ members, give member = .ok part) joined := by
  have isJoin {result : V} (folded : assembly.joinEach give members = .ok result) :
      assembly.IsJoinOf (fun part => ∃ member ∈ members, give member = .ok part) result := by
    constructor
    · rintro part ⟨member, listed, given⟩
      obtain ⟨same, sameGiven, below⟩ := laws.below_joinEach folded listed
      obtain rfl : same = part := Except.ok.inj (sameGiven.symm.trans given)
      exact below
    · intro upper above
      apply laws.joinEach_below folded
      intro member listed part given
      exact above part ⟨member, listed, given⟩
  constructor
  · intro folded
    exact ⟨exists_joinEach_iff.mp ⟨joined, folded⟩, isJoin folded⟩
  · rintro ⟨each, joins⟩
    obtain ⟨result, folded⟩ := exists_joinEach_iff.mpr each
    rw [folded, (isJoin folded).unique laws joins]

end Semilattice

end Assembly

namespace Transition

variable [BEq P] {assembly : Assembly V P E} {transition : Transition P} {source : State}
  {value fired given : V} {zones others : List (ExitZone P)}

section Zones

variable [Std.Associative assembly.join] [Std.Commutative assembly.join]
  [Std.IdempotentOp assembly.join]

omit [BEq V] in
theorem fired_of_mem_iff (same : ∀ zone, zone ∈ zones ↔ zone ∈ others)
    (fires : transition.fired assembly source value zones = .ok fired) :
    transition.fired assembly source value others = .ok fired := by
  unfold Transition.fired at fires ⊢
  split at fires
  · rename_i triggered
    rw [if_pos triggered]
    exact fires
  · rename_i reactive
    rw [if_neg reactive]
    refine Assembly.joinEach_of_mem_iff (fun zone => ?_) fires
    rw [List.mem_filter, List.mem_filter, same]

omit [BEq V] in
theorem contribute_of_mem_iff (same : ∀ zone, zone ∈ zones ↔ zone ∈ others)
    (contributes : transition.contribute assembly source value zones = .ok given) :
    transition.contribute assembly source value others = .ok given := by
  obtain ⟨fired, fires, delivered⟩ := bind_eq_ok.mp contributes
  exact bind_eq_ok.mpr ⟨fired, fired_of_mem_iff same fires, delivered⟩

end Zones

/-- A reactive transition passes on the join of what the admitted zones make of the value. -/
theorem fired_reactive [LawfulBEq V] (laws : assembly.Semilattice)
    (reactive : transition.triggerable = false) (ordinary : source.isSeed = false) :
    transition.fired assembly source value zones = .ok fired ↔
      (∀ zone ∈ zones, transition.guard.admits zone.target = true →
        ∃ fragment, assembly.fire zone.submachine zone.step value = .ok fragment) ∧
      assembly.IsJoinOf (fun fragment => ∃ zone ∈ zones,
        transition.guard.admits zone.target = true ∧
          assembly.fire zone.submachine zone.step value = .ok fragment) fired := by
  have joins : transition.fired assembly source value zones =
      assembly.joinEach (fun zone => assembly.fire zone.submachine zone.step value)
        (zones.filter fun zone => transition.guard.admits zone.target) := by
    rw [Transition.fired, reactive, ordinary]
    rfl
  rw [joins, laws.joinEach_eq_ok_iff_isJoinOf]
  simp only [List.mem_filter, and_imp, and_assoc]

/-- What a transition gives grows with the value and the set of exit zones of its source,
and without its actions a reactive one gives the join of the admitted images. -/
theorem contribution_grows [LawfulBEq V] (laws : assembly.Lawful) (transition : Transition P)
    (source : State) :
    (∀ (value greater : V) (zones more : List (ExitZone P)) (given givenMore : V),
      assembly.below value greater = true → (∀ zone ∈ zones, zone ∈ more) →
      (transition.contribution assembly source value zones).result = .ok given →
      (transition.contribution assembly source greater more).result = .ok givenMore →
      assembly.below given givenMore = true) ∧
    (∀ (value : V) (zones others : List (ExitZone P)),
      (∀ zone, zone ∈ zones ↔ zone ∈ others) → ∀ given,
        (transition.contribution assembly source value zones).result = .ok given ↔
          (transition.contribution assembly source value others).result = .ok given) ∧
    (∀ (value : V) (zones : List (ExitZone P)),
      (transition.contribution assembly source value zones).result =
        transition.fired assembly source value zones >>=
          assembly.deliverAll transition.actions) ∧
    (transition.triggerable = false → source.isSeed = false →
      ∀ (value : V) (zones : List (ExitZone P)) (fired : V),
        transition.fired assembly source value zones = .ok fired ↔
          (∀ zone ∈ zones, transition.guard.admits zone.target = true →
            ∃ fragment, assembly.fire zone.submachine zone.step value = .ok fragment) ∧
          assembly.IsJoinOf (fun fragment => ∃ zone ∈ zones,
            transition.guard.admits zone.target = true ∧
              assembly.fire zone.submachine zone.step value = .ok fragment) fired) := by
  simp only [Machine.result_contribution]
  refine ⟨?_, ?_, fun _ _ => rfl, ?_⟩
  · intro value greater zones more given givenMore ordered included gives givesMore
    exact laws.contribute_within (.refl laws.toSemilattice) ordered included gives givesMore
  · intro value zones others same given
    have associative : Std.Associative assembly.join := ⟨laws.join_assoc⟩
    have commutative : Std.Commutative assembly.join := ⟨laws.join_comm⟩
    have idempotent : Std.IdempotentOp assembly.join := ⟨laws.join_idem⟩
    exact ⟨contribute_of_mem_iff same, contribute_of_mem_iff fun zone => (same zone).symm⟩
  · intro reactive ordinary value zones fired
    exact fired_reactive laws.toSemilattice reactive ordinary

theorem ringingClimb_grows :
    Samples.ringingLift.assembly.Lawful ∧
      Samples.ringingLift.assembly.below 0b0001 0b0011 = true ∧
      (∀ zone ∈ [⟨1, "lift", "up1"⟩], zone ∈ Samples.waysUp) ∧
      (Samples.ringingClimb.contribution Samples.ringingLift.assembly (.ordinary "A") 0b0001
        [⟨1, "lift", "up1"⟩]).result = .ok 0b1010 ∧
      (Samples.ringingClimb.contribution Samples.ringingLift.assembly (.ordinary "A") 0b0011
        Samples.waysUp).result = .ok 0b1110 ∧
      Samples.ringingLift.assembly.below 0b1010 0b1110 = true ∧
      (Samples.ringingClimb.contribution Samples.ringingLift.assembly (.ordinary "A") 0b0011
        (Samples.waysUp.reverse ++ Samples.waysUp)).result = .ok 0b1110 ∧
      Samples.ringingLift.assembly.IsJoinOf (fun fragment => ∃ zone ∈ Samples.waysUp,
        Samples.ringingClimb.guard.admits zone.target = true ∧
          Samples.ringingLift.assembly.fire zone.submachine zone.step 0b0011 = .ok fragment)
        0b0111 := by
  have laws := Samples.ringingLift.lawful
  obtain ⟨grows, sameSet, -, joins⟩ :=
    contribution_grows laws Samples.ringingClimb (.ordinary "A")
  have ordered : Samples.ringingLift.assembly.below 0b0001 0b0011 = true := by decide
  have included : ∀ zone ∈ [⟨1, "lift", "up1"⟩], zone ∈ Samples.waysUp := by decide
  have gives : (Samples.ringingClimb.contribution Samples.ringingLift.assembly (.ordinary "A")
      0b0001 [⟨1, "lift", "up1"⟩]).result = .ok 0b1010 := by decide
  have givesMore : (Samples.ringingClimb.contribution Samples.ringingLift.assembly
      (.ordinary "A") 0b0011 Samples.waysUp).result = .ok 0b1110 := by decide
  have fires : Samples.ringingClimb.fired Samples.ringingLift.assembly (.ordinary "A") 0b0011
      Samples.waysUp = .ok 0b0111 := by decide
  refine ⟨laws, ordered, included, gives, givesMore,
    grows _ _ _ _ _ _ ordered included gives givesMore, ?_,
    ((joins rfl rfl _ _ _).mp fires).2⟩
  exact (sameSet _ _ _ (by simp) _).mp givesMore

end Transition
end ReactiveReach
