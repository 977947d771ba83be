import ReactiveReach.Proofs.Pass

/-!
# The laws of values

The model assumes nothing about the operations on values. Here are the laws that
make them a join semilattice with monotone operations, as hypotheses for the
theorems that need them. Operations may fail, so monotone means that the results
are ordered where both exist. From the laws follows that a transition gives more to
its target when its source has more configurations and more exit zones, also when it
does so in another assembly that begins with more and guards less.
-/

namespace ReactiveReach

variable {V P E : Type} [BEq V]

/-- Joining is that of a semilattice whose least value is bottom. -/
structure Assembly.Semilattice (assembly : Assembly V P E) : Prop where
  bottom_join : ∀ a, assembly.join assembly.bottom a = a
  join_assoc : ∀ a b c,
    assembly.join (assembly.join a b) c = assembly.join a (assembly.join b c)
  join_comm : ∀ a b, assembly.join a b = assembly.join b a
  join_idem : ∀ a, assembly.join a a = a

/-- A semilattice in which meeting, firing and delivering are monotone. -/
structure Assembly.Lawful (assembly : Assembly V P E) : Prop
    extends assembly.Semilattice where
  meet_mono : ∀ {a b c d}, assembly.below a b = true → assembly.below c d = true →
    assembly.below (assembly.meet a c) (assembly.meet b d) = true
  fire_mono : ∀ {submachine step a b a' b'}, assembly.below a b = true →
    assembly.fire submachine step a = .ok a' → assembly.fire submachine step b = .ok b' →
    assembly.below a' b' = true
  deliver_mono : ∀ {submachine event a b a' b'}, assembly.below a b = true →
    assembly.deliver submachine event a = .ok a' →
    assembly.deliver submachine event b = .ok b' → assembly.below a' b' = true

/-- A machine over lawful values in which more configurations have more exit zones. -/
structure Machine.Lawful (machine : Machine V P E) : Prop where
  values : machine.assembly.Lawful
  exits_mono : ∀ {state v w zones others}, machine.assembly.below v w = true →
    machine.exits state v = .ok zones → machine.exits state w = .ok others →
    ∀ zone ∈ zones, zone ∈ others

/-- Assemblies with the same operations on values, of which `large` begins with no less
than `small` and its guards let no less pass. -/
structure Assembly.Within (small large : Assembly V P E) : Prop where
  bottom_eq : small.bottom = large.bottom
  meet_eq : small.meet = large.meet
  join_eq : small.join = large.join
  fire_eq : small.fire = large.fire
  deliver_eq : small.deliver = large.deliver
  initial_below : ∀ {a b}, small.initial = .ok a → large.initial = .ok b →
    large.below a b = true
  top_below : large.below small.top large.top = true
  meaning_below : ∀ {predicate a b}, small.meaning predicate = .ok a →
    large.meaning predicate = .ok b → large.below a b = true

namespace Assembly

variable {assembly : Assembly V P E}

theorem below_iff [LawfulBEq V] {a b : V} :
    assembly.below a b = true ↔ assembly.join a b = b := by
  simp [below]

namespace Semilattice

variable [LawfulBEq V] {a b c : V}

theorem below_refl (laws : assembly.Semilattice) (a : V) : assembly.below a a = true :=
  below_iff.mpr (laws.join_idem a)

theorem below_trans (laws : assembly.Semilattice) (first : assembly.below a b = true)
    (second : assembly.below b c = true) : assembly.below a c = true := by
  rw [below_iff] at first second ⊢
  calc
    assembly.join a c = assembly.join a (assembly.join b c) := by rw [second]
    _ = assembly.join (assembly.join a b) c := (laws.join_assoc a b c).symm
    _ = c := by rw [first, second]

theorem below_antisymm (laws : assembly.Semilattice) (first : assembly.below a b = true)
    (second : assembly.below b a = true) : a = b := by
  rw [below_iff] at first second
  rw [← second, laws.join_comm, first]

theorem bottom_below (laws : assembly.Semilattice) (a : V) :
    assembly.below assembly.bottom a = true :=
  below_iff.mpr (laws.bottom_join a)

theorem below_join_left (laws : assembly.Semilattice) (a b : V) :
    assembly.below a (assembly.join a b) = true := by
  rw [below_iff, ← laws.join_assoc, laws.join_idem]

theorem below_join_right (laws : assembly.Semilattice) (a b : V) :
    assembly.below b (assembly.join a b) = true := by
  rw [laws.join_comm]
  exact laws.below_join_left b a

theorem join_below (laws : assembly.Semilattice) (first : assembly.below a c = true)
    (second : assembly.below b c = true) :
    assembly.below (assembly.join a b) c = true := by
  rw [below_iff] at first second ⊢
  rw [laws.join_assoc, second, first]

section JoinEach

variable {α ε : Type} {give : α → Except ε V}

/-- A join is below what all its parts and its start are below, and above them. -/
theorem foldlM_join (laws : assembly.Semilattice) {members : List α} {start joined : V}
    (folded : members.foldlM
      (fun joined member => do return assembly.join joined (← give member)) start =
        .ok joined) :
    assembly.below start joined = true ∧
      (∀ member ∈ members, ∃ value, give member = .ok value ∧
        assembly.below value joined = true) ∧
      ∀ upper, assembly.below start upper = true →
        (∀ member ∈ members, ∀ value, give member = .ok value →
          assembly.below value upper = true) →
        assembly.below joined upper = true := by
  induction members generalizing start with
  | nil =>
      obtain rfl : start = joined := by simpa using folded
      exact ⟨laws.below_refl start, by simp, fun upper startBelow _ => startBelow⟩
  | cons member members ih =>
      simp only [List.foldlM_cons, bind_eq_ok, pure_eq_ok] at folded
      obtain ⟨_, ⟨value, given, rfl⟩, folded⟩ := folded
      obtain ⟨startBelow, parts, least⟩ := ih folded
      refine ⟨laws.below_trans (laws.below_join_left start value) startBelow,
        List.forall_mem_cons.mpr ⟨⟨value, given,
          laws.below_trans (laws.below_join_right start value) startBelow⟩, parts⟩, ?_⟩
      intro upper below each
      rw [List.forall_mem_cons] at each
      exact least upper (laws.join_below below (each.1 value given)) each.2

theorem below_joinEach (laws : assembly.Semilattice) {members : List α} {joined : V}
    (folded : assembly.joinEach give members = .ok joined) {member : α}
    (memberMem : member ∈ members) :
    ∃ value, give member = .ok value ∧ assembly.below value joined = true :=
  (laws.foldlM_join folded).2.1 member memberMem

theorem joinEach_below (laws : assembly.Semilattice) {members : List α} {joined upper : V}
    (folded : assembly.joinEach give members = .ok joined)
    (each : ∀ member ∈ members, ∀ value, give member = .ok value →
      assembly.below value upper = true) :
    assembly.below joined upper = true :=
  (laws.foldlM_join folded).2.2 upper (laws.bottom_below upper) each

end JoinEach

end Semilattice

namespace Within

variable {small large : Assembly V P E}

/-- An assembly gives itself no less than it has. -/
theorem refl [LawfulBEq V] (laws : assembly.Semilattice) : assembly.Within assembly where
  bottom_eq := rfl
  meet_eq := rfl
  join_eq := rfl
  fire_eq := rfl
  deliver_eq := rfl
  initial_below first second := by
    rw [first, Except.ok.injEq] at second
    rw [second]
    exact laws.below_refl _
  top_below := laws.below_refl _
  meaning_below first second := by
    rw [first, Except.ok.injEq] at second
    rw [second]
    exact laws.below_refl _

theorem joinEach_eq (within : small.Within large) {α ε : Type} (give : α → Except ε V)
    (members : List α) : small.joinEach give members = large.joinEach give members := by
  rw [joinEach, joinEach, within.join_eq, within.bottom_eq]

theorem fireAll_eq (within : small.Within large) : small.fireAll = large.fireAll := by
  funext zones value
  rw [fireAll, fireAll, within.join_eq, within.fire_eq, within.bottom_eq]

theorem deliverAll_eq (within : small.Within large) : small.deliverAll = large.deliverAll := by
  funext actions value
  rw [deliverAll, deliverAll, within.deliver_eq]

theorem guardMeaning_below (within : small.Within large) {guard : Guard P} {a b : V}
    (first : small.guardMeaning guard = .ok a) (second : large.guardMeaning guard = .ok b) :
    large.below a b = true := by
  cases guard with
  | always =>
      obtain rfl : small.top = a := Except.ok.inj first
      obtain rfl : large.top = b := Except.ok.inj second
      exact within.top_below
  | holds predicate => exact within.meaning_below first second

end Within

namespace Lawful

variable [LawfulBEq V] {v w a b : V}

theorem fireAll_mono (laws : assembly.Lawful) (ordered : assembly.below v w = true)
    {zones others : List (ExitZone P)} (included : ∀ zone ∈ zones, zone ∈ others)
    (first : assembly.fireAll zones v = .ok a) (second : assembly.fireAll others w = .ok b) :
    assembly.below a b = true := by
  refine laws.joinEach_below first fun zone member fragment fired => ?_
  obtain ⟨other, otherFired, below⟩ := laws.below_joinEach second (included zone member)
  exact laws.below_trans (laws.fire_mono ordered fired otherFired) below

omit [LawfulBEq V] in
theorem deliverAll_mono (laws : assembly.Lawful) (ordered : assembly.below v w = true)
    {actions : List Action} (first : assembly.deliverAll actions v = .ok a)
    (second : assembly.deliverAll actions w = .ok b) : assembly.below a b = true := by
  induction actions generalizing v w with
  | nil =>
      obtain rfl : v = a := by simpa [deliverAll] using first
      obtain rfl : w = b := by simpa [deliverAll] using second
      exact ordered
  | cons action actions ih =>
      simp only [deliverAll, List.foldlM_cons, bind_eq_ok] at first second
      obtain ⟨v', delivered, first⟩ := first
      obtain ⟨w', otherDelivered, second⟩ := second
      exact ih (laws.deliver_mono ordered delivered otherDelivered) first second

variable [BEq P]

theorem fired_within {small large : Assembly V P E} (laws : large.Lawful)
    (within : small.Within large) (ordered : large.below v w = true)
    {zones others : List (ExitZone P)} (included : ∀ zone ∈ zones, zone ∈ others)
    {transition : Transition P} {source : State}
    (first : transition.fired small source v zones = .ok a)
    (second : transition.fired large source w others = .ok b) :
    large.below a b = true := by
  unfold Transition.fired at first second
  split at first
  · rename_i triggered
    rw [if_pos triggered] at second
    simp only [bind_eq_ok, pure_eq_ok] at first second
    obtain ⟨guard, meaning, rfl⟩ := first
    obtain ⟨otherGuard, otherMeaning, rfl⟩ := second
    rw [within.meet_eq]
    exact laws.meet_mono ordered (within.guardMeaning_below meaning otherMeaning)
  · rename_i reactive
    rw [if_neg reactive] at second
    rw [within.fireAll_eq] at first
    refine laws.fireAll_mono ordered (fun zone member => ?_) first second
    rw [List.mem_filter] at member ⊢
    exact ⟨included zone member.1, member.2⟩

/-- A transition gives more where its source has more configurations and more exit
zones, and where more passes its guard. -/
theorem contribute_within {small large : Assembly V P E} (laws : large.Lawful)
    (within : small.Within large) (ordered : large.below v w = true)
    {zones others : List (ExitZone P)} (included : ∀ zone ∈ zones, zone ∈ others)
    {transition : Transition P} {source : State}
    (first : transition.contribute small source v zones = .ok a)
    (second : transition.contribute large source w others = .ok b) :
    large.below a b = true := by
  simp only [Transition.contribute, bind_eq_ok] at first second
  obtain ⟨fired, firedFirst, first⟩ := first
  obtain ⟨otherFired, firedSecond, second⟩ := second
  rw [within.deliverAll_eq] at first
  have below := laws.fired_within within ordered included firedFirst firedSecond
  exact laws.deliverAll_mono below first second

end Lawful

end Assembly
end ReactiveReach
