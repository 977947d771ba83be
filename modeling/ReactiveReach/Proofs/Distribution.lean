import ReactiveReach.Proofs.Lattice

/-!
# Operations that distribute over joining

An operation that keeps bottom, and that gives for a join what it gives for the parts,
loses nothing when it is applied to many values at once. Operations may fail, so the
law speaks of results where they exist. Where guards, firing and delivering are such
operations, what a transition contributes is one too, under exit zones that are fixed.
-/

namespace ReactiveReach

variable {V P E ε α : Type}

/-- An operation keeps bottom and distributes over joining, where it has results. -/
structure Assembly.Distributes (assembly : Assembly V P E) (operation : V → Except ε V) :
    Prop where
  of_bottom : ∀ {a}, operation assembly.bottom = .ok a → a = assembly.bottom
  of_join : ∀ {a b a' b' c}, operation a = .ok a' → operation b = .ok b' →
    operation (assembly.join a b) = .ok c → c = assembly.join a' b'

/-- A semilattice in which meeting a guard, firing and delivering distribute. -/
structure Assembly.Distributive (assembly : Assembly V P E) : Prop
    extends assembly.Semilattice where
  meet_distributes : ∀ {guard meaning}, assembly.guardMeaning guard = .ok meaning →
    assembly.Distributes fun value => (.ok (assembly.meet value meaning) : Except E V)
  fire_distributes : ∀ submachine step, assembly.Distributes (assembly.fire submachine step)
  deliver_distributes : ∀ submachine event,
    assembly.Distributes (assembly.deliver submachine event)

/-- A machine over distributive values whose exit zones are the same for every value. -/
structure Machine.Distributive (machine : Machine V P E) : Prop where
  values : machine.assembly.Distributive
  exits_const : ∀ state v w, machine.exits state v = machine.exits state w

namespace Assembly

variable {assembly : Assembly V P E}

namespace Distributes

variable {operation next : V → Except ε V}

theorem ok : assembly.Distributes (.ok : V → Except ε V) where
  of_bottom := by
    rintro _ ⟨⟩
    rfl
  of_join := by
    rintro a b _ _ _ ⟨⟩ ⟨⟩ ⟨⟩
    rfl

theorem error (failure : ε) : assembly.Distributes fun _ => (.error failure : Except ε V) where
  of_bottom failed := by cases failed
  of_join failed := by cases failed

theorem bind (first : assembly.Distributes operation) (second : assembly.Distributes next) :
    assembly.Distributes fun value => operation value >>= next where
  of_bottom result := by
    rw [bind_eq_ok] at result
    obtain ⟨middle, before, after⟩ := result
    rw [first.of_bottom before] at after
    exact second.of_bottom after
  of_join left right both := by
    rw [bind_eq_ok] at left right both
    obtain ⟨a, leftBefore, leftAfter⟩ := left
    obtain ⟨b, rightBefore, rightAfter⟩ := right
    obtain ⟨c, bothBefore, bothAfter⟩ := both
    rw [first.of_join leftBefore rightBefore bothBefore] at bothAfter
    exact second.of_join leftAfter rightAfter bothAfter

theorem mapError {δ : Type} (distributes : assembly.Distributes operation) (view : ε → δ) :
    assembly.Distributes fun value => (operation value).mapError view where
  of_bottom result := distributes.of_bottom (mapError_eq_ok.mp result)
  of_join left right both :=
    distributes.of_join (mapError_eq_ok.mp left) (mapError_eq_ok.mp right) (mapError_eq_ok.mp both)

theorem foldlM {step : V → α → Except ε V} {members : List α}
    (each : ∀ member ∈ members, assembly.Distributes (step · member)) :
    assembly.Distributes (members.foldlM step ·) := by
  induction members with
  | nil => exact ok
  | cons member members ih =>
      rw [List.forall_mem_cons] at each
      simp only [List.foldlM_cons]
      exact each.1.bind (ih each.2)

variable [BEq V] [LawfulBEq V]

theorem mono (distributes : assembly.Distributes operation) {a b a' b' : V}
    (ordered : assembly.below a b = true) (first : operation a = .ok a')
    (second : operation b = .ok b') : assembly.below a' b' = true := by
  rw [below_iff] at ordered ⊢
  have both : operation (assembly.join a b) = .ok b' := ordered.symm ▸ second
  exact (distributes.of_join first second both).symm

/-- The join of what several operations give distributes if they do. -/
theorem joinEach (laws : assembly.Semilattice) {give : α → V → Except ε V} {members : List α}
    (each : ∀ member ∈ members, assembly.Distributes (give member)) :
    assembly.Distributes fun value => assembly.joinEach (give · value) members where
  of_bottom {a} folded := by
    have below : assembly.below a assembly.bottom = true := by
      apply laws.joinEach_below folded
      intro member listed value given
      rw [(each member listed).of_bottom given]
      exact laws.below_refl _
    exact laws.below_antisymm below (laws.bottom_below a)
  of_join {a b a' b' c} left right both := by
    apply laws.below_antisymm
    · apply laws.joinEach_below both
      intro member listed value given
      obtain ⟨x, givenLeft, belowLeft⟩ := laws.below_joinEach left listed
      obtain ⟨y, givenRight, belowRight⟩ := laws.below_joinEach right listed
      rw [(each member listed).of_join givenLeft givenRight given]
      exact laws.join_below (laws.below_trans belowLeft (laws.below_join_left a' b'))
        (laws.below_trans belowRight (laws.below_join_right a' b'))
    · have part : ∀ {v w}, assembly.below v (assembly.join a b) = true →
          assembly.joinEach (give · v) members = .ok w → assembly.below w c = true := by
        intro v w ordered folded
        apply laws.joinEach_below folded
        intro member listed value given
        obtain ⟨whole, givenWhole, belowWhole⟩ := laws.below_joinEach both listed
        exact laws.below_trans ((each member listed).mono ordered given givenWhole) belowWhole
      exact laws.join_below (part (laws.below_join_left a b) left)
        (part (laws.below_join_right a b) right)

section Parts

variable {sound : V → Prop} {give : α → Except ε V} {members : List α} {joined result upper : V}

theorem below_of_foldlM (laws : assembly.Semilattice)
    (distributes : assembly.Distributes operation)
    (joins : ∀ {a b}, sound a → sound b → sound (assembly.join a b))
    (succeeds : ∀ value, sound value → ∃ part, operation value = .ok part) {start : V}
    (startSound : sound start)
    (startBelow : ∀ part, operation start = .ok part → assembly.below part upper = true)
    (each : ∀ member ∈ members, ∀ value, give member = .ok value → sound value ∧
      ∀ part, operation value = .ok part → assembly.below part upper = true)
    (folded : members.foldlM
      (fun joined member => do return assembly.join joined (← give member)) start = .ok joined)
    (operated : operation joined = .ok result) : assembly.below result upper = true := by
  induction members generalizing start with
  | nil =>
      obtain rfl : start = joined := by simpa using folded
      exact startBelow result operated
  | cons member members ih =>
      rw [List.forall_mem_cons] at each
      simp only [List.foldlM_cons, bind_eq_ok, pure_eq_ok] at folded
      obtain ⟨_, ⟨value, given, rfl⟩, folded⟩ := folded
      obtain ⟨valueSound, valueBelow⟩ := each.1 value given
      apply ih (joins startSound valueSound) ?_ each.2 folded
      intro part whole
      obtain ⟨first, gives⟩ := succeeds start startSound
      obtain ⟨second, givesToo⟩ := succeeds value valueSound
      rw [distributes.of_join gives givesToo whole]
      exact laws.join_below (startBelow first gives) (valueBelow second givesToo)

/-- What an operation gives for a join is below what all its results for the parts are
below. It must also succeed on the values that the parts join to on the way. -/
theorem below_of_joinEach (laws : assembly.Semilattice)
    (distributes : assembly.Distributes operation)
    (joins : ∀ {a b}, sound a → sound b → sound (assembly.join a b))
    (succeeds : ∀ value, sound value → ∃ part, operation value = .ok part)
    (each : ∀ member ∈ members, ∀ value, give member = .ok value → sound value ∧
      ∀ part, operation value = .ok part → assembly.below part upper = true)
    (folded : assembly.joinEach give members = .ok joined)
    (operated : operation joined = .ok result) : assembly.below result upper = true := by
  cases members with
  | nil =>
      obtain rfl : assembly.bottom = joined := Except.ok.inj folded
      rw [distributes.of_bottom operated]
      exact laws.bottom_below upper
  | cons member members =>
      -- The operation may fail on bottom, so the first part is the start.
      rw [List.forall_mem_cons] at each
      simp only [Assembly.joinEach, List.foldlM_cons, bind_eq_ok, pure_eq_ok,
        laws.bottom_join] at folded
      obtain ⟨_, ⟨value, given, rfl⟩, folded⟩ := folded
      obtain ⟨valueSound, valueBelow⟩ := each.1 value given
      exact distributes.below_of_foldlM laws joins succeeds valueSound valueBelow each.2 folded
        operated

end Parts

end Distributes

variable [BEq V] [LawfulBEq V] [BEq P]

/-- Under fixed exit zones contributions distribute. -/
theorem Distributive.contribute (laws : assembly.Distributive) (transition : Transition P)
    (source : State) (zones : List (ExitZone P)) :
    assembly.Distributes (transition.contribute assembly source · zones) := by
  have fired : assembly.Distributes (transition.fired assembly source · zones) := by
    unfold Transition.fired
    split
    · cases meaning : assembly.guardMeaning transition.guard with
      | error failure => exact .error failure
      | ok guard => exact laws.meet_distributes meaning
    · exact .joinEach laws.toSemilattice fun zone _ =>
        laws.fire_distributes zone.submachine zone.step
  have delivered : assembly.Distributes (assembly.deliverAll transition.actions) :=
    .foldlM fun action _ => laws.deliver_distributes action.submachine action.event
  exact fired.bind delivered

end Assembly
end ReactiveReach
