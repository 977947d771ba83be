import Mathlib.Algebra.GroupWithZero.Nat
import Mathlib.Algebra.Order.BigOperators.Group.List
import Mathlib.Algebra.Order.Group.Nat
import Mathlib.Data.Finset.Card
import ReactiveReach.Proofs.Leastness

/-!
# How long a run can take

Where no value is more than some number of strict steps above bottom, a state can only
change that often, for whenever it changes it climbs. Every pass but the last changes
some state. A run therefore comes to rest after at most one pass more than all states
but the seed can climb together.
-/

namespace ReactiveReach

variable {V P E : Type}

section Height

variable [BEq V] {assembly : Assembly V P E}

/-- A value is reached from bottom in a number of strict steps upwards. -/
inductive Assembly.Climbs (assembly : Assembly V P E) : V → Nat → Prop
  | bottom : Climbs assembly assembly.bottom 0
  | step {value next : V} {steps : Nat} : Climbs assembly value steps →
      assembly.below value next = true → value ≠ next → Climbs assembly next (steps + 1)

/-- No strictly increasing chain from bottom has more than `height` steps. -/
def Assembly.HeightAtMost (assembly : Assembly V P E) (height : Nat) : Prop :=
  ∀ value steps, assembly.Climbs value steps → steps ≤ height

theorem Assembly.heightAtMost_of_rank (rank : V → Nat) {height : Nat}
    (raises : ∀ {a b}, assembly.below a b = true → a ≠ b → rank a < rank b)
    (bounded : ∀ value, rank value ≤ height) : assembly.HeightAtMost height := by
  intro value steps climbs
  have ranked : steps ≤ rank value := by
    induction climbs with
    | bottom => exact Nat.zero_le _
    | step _ below differs ih => exact Nat.lt_of_le_of_lt ih (raises below differs)
  exact ranked.trans (bounded value)

end Height

namespace Samples

def flagSet (flags : UInt32) : Finset Nat :=
  (Finset.range 32).filter (hasFlag flags · = true)

theorem mem_flagSet {flags : UInt32} {flag : Nat} :
    flag ∈ flagSet flags ↔ hasFlag flags flag = true := by
  rw [flagSet, Finset.mem_filter, Finset.mem_range, and_iff_right_iff_imp]
  intro present
  by_contra outside
  rw [hasFlag, BitVec.getLsbD_of_ge _ _ (Nat.le_of_not_lt outside)] at present
  cases present

theorem flagSet_subset_iff {a b : UInt32} : flagSet a ⊆ flagSet b ↔ a ||| b = b := by
  simp only [or_eq_right_iff, Finset.subset_iff, mem_flagSet]

theorem flagSet_injective {a b : UInt32} (same : flagSet a = flagSet b) : a = b := by
  apply eq_of_hasFlag
  intro flag
  rw [Bool.eq_iff_iff, ← mem_flagSet, ← mem_flagSet, same]

/-- A strict step between sets of flags adds a flag, and there are 32 of them. -/
theorem BitTables.heightAtMost (tables : BitTables) : tables.assembly.HeightAtMost 32 := by
  apply Assembly.heightAtMost_of_rank fun flags => (flagSet flags).card
  · intro a b below differs
    apply Finset.card_lt_card
    apply (flagSet_subset_iff.mpr (tables.below_iff.mp below)).ssubset_of_ne
    exact differs ∘ flagSet_injective
  · intro flags
    calc
      (flagSet flags).card ≤ (Finset.range 32).card := Finset.card_filter_le _ _
      _ = 32 := Finset.card_range 32

end Samples

namespace History

private theorem length_eq_sum_listed {ids changed : List StateId} (nodup : ids.Nodup)
    (inOrder : changed.Sublist ids) :
    changed.length = (ids.map fun id => if changed.contains id then 1 else 0).sum := by
  have listed := filter_mem_perm nodup (nodup.sublist inOrder) inOrder.subset
  rw [← listed.length_eq, ← List.countP_eq_length_filter]
  clear listed inOrder nodup
  induction ids with
  | nil => rfl
  | cons id ids ih =>
      rw [List.countP_cons, ih, List.map_cons, List.sum_cons, Nat.add_comm]
      simp only [List.contains_eq_mem]

theorem totalChanges_eq_sum {history : History} {ids : List StateId} (nodup : ids.Nodup)
    (inOrder : ∀ entry ∈ history.toList, entry.changed.Sublist ids) :
    history.totalChanges = (ids.map fun id => (history.changesOf id).length).sum := by
  simp only [totalChanges, changesOf, List.length_map]
  generalize history.toList = entries at inOrder ⊢
  induction entries with
  | nil => simp
  | cons entry entries ih =>
      rw [List.forall_mem_cons] at inOrder
      have here := length_eq_sum_listed nodup inOrder.1
      have rest := ih inOrder.2
      rw [List.flatMap_cons, List.length_append, here, rest, ← List.sum_map_add]
      congr 2
      funext id
      by_cases listed : id ∈ entry.changed <;> simp [listed, Nat.add_comm]

end History

namespace Machine

variable [BEq V] [BEq P] {machine : Machine V P E} {values : StateMap V}
  {progress : Progress V P}

namespace Reaches

theorem passes_le (reaches : machine.Reaches values progress) :
    progress.passes ≤ progress.history.totalChanges + progress.settled.toNat := by
  induction reaches with
  | start => exact Nat.zero_le _
  | @pass earlier outcome _ unsettled _ ih =>
      rw [unsettled] at ih
      simp only [Progress.next, History.totalChanges_record]
      cases changed : outcome.changed with
      | nil => simpa using ih
      | cons id ids =>
          simp only [List.length_cons, Bool.toNat_false] at ih ⊢
          omega

variable [LawfulBEq V]

/-- Every state climbs from bottom with each of its changes. -/
theorem climbs (reaches : machine.Reaches values progress) (lawful : machine.Lawful)
    (started : machine.startValues = .ok values) {state : State}
    (member : state ∈ machine.recomputed) :
    ∃ value, progress.semantics[state.id]? = some value ∧
      machine.assembly.Climbs value (progress.history.changesOf state.id).length := by
  induction reaches with
  | start => exact ⟨_, getElem?_startValues started member, .bottom⟩
  | @pass earlier outcome reached _ passed ih =>
      obtain ⟨value, found, climbs⟩ := ih
      have wellFormed := (anchored_of_startValues started).wellFormed
      obtain ⟨before, after, foundBefore, -, stored, differs⟩ :=
        (isPass_of_pass wellFormed passed).exists_recomputed member
      obtain rfl : value = before := Option.some.inj (found.symm.trans foundBefore)
      refine ⟨after, stored, ?_⟩
      rw [Progress.next, History.changesOf_record]
      by_cases changed : state.id ∈ outcome.changed
      · obtain ⟨_, _, foundThere, storedThere, below, grew⟩ :=
          lawful.grows_of_changed started reached.iterates_eq passed changed
        obtain rfl := Option.some.inj (found.symm.trans foundThere)
        obtain rfl := Option.some.inj (stored.symm.trans storedThere)
        simpa [changed] using climbs.step below grew
      · have same : after = value := not_not.mp (changed ∘ differs.mpr)
        simpa [changed, same] using climbs

theorem totalChanges_le (reaches : machine.Reaches values progress) (lawful : machine.Lawful)
    (started : machine.startValues = .ok values) {height : Nat}
    (bounded : machine.assembly.HeightAtMost height) :
    progress.history.totalChanges ≤ height * (machine.states.length - 1) := by
  have wellFormed := (anchored_of_startValues started).wellFormed
  have each : ∀ count ∈ (machine.recomputed.map (·.id)).map
      fun id => (progress.history.changesOf id).length, count ≤ height := by
    intro count counted
    simp only [List.map_map, List.mem_map, Function.comp_apply] at counted
    obtain ⟨state, member, rfl⟩ := counted
    obtain ⟨value, -, climbs⟩ := reaches.climbs lawful started member
    exact bounded value _ climbs
  calc
    progress.history.totalChanges =
        ((machine.recomputed.map (·.id)).map
          fun id => (progress.history.changesOf id).length).sum :=
      History.totalChanges_eq_sum wellFormed.recomputed_nodup
        fun _ => reaches.sublist_of_mem_history wellFormed
    _ ≤ machine.recomputed.length * height := by
      simpa using List.sum_le_card_nsmul _ height each
    _ = height * (machine.states.length - 1) := by
      rw [wellFormed.length_recomputed, Nat.mul_comm]

end Reaches

/-- Over a lattice of finite height a machine that does not fail comes to rest, provided
that the solver allows as many passes as all states but the seed can climb steps, and one
more to see that nothing changes. -/
theorem solve_converges [LawfulBEq V] (lawful : machine.Lawful)
    (wellFormed : machine.WellFormed) {height : Nat}
    (bounded : machine.assembly.HeightAtMost height) {solver : Solver}
    (enough : height * (machine.states.length - 1) + 1 ≤ solver.cap)
    (noFailure : ∀ cause, (solver.solve machine).result ≠ .error (.failed (.operation cause))) :
    ∃ solution, (solver.solve machine).result = .ok solution ∧
      solution.convergence = .converged ∧
      solution.iterations ≤ height * (machine.states.length - 1) + 1 ∧
      solution.history.totalChanges ≤ height * (machine.states.length - 1) := by
  obtain ⟨solution, solved⟩ := wellFormed.exists_solution noFailure
  obtain ⟨values, started, ended⟩ := solve_eq_ok_iff.mp solved
  obtain ⟨last, -, rfl, reaches, -, -, exactly⟩ := runFrom_eq_ok solver.cap_pos ended
  have changes := reaches.totalChanges_le lawful started bounded
  have passes := reaches.passes_le
  have settled : last.settled = true := by
    by_contra unsettled
    rw [Bool.not_eq_true] at unsettled
    -- The run would have used up the cap, each time with a change.
    have usedUp := exactly unsettled
    rw [unsettled, Bool.toNat_false] at passes
    omega
  rw [settled, Bool.toNat_true] at passes
  refine ⟨_, solved, Progress.solution_isConverged.mpr settled, ?_, changes⟩
  change last.passes ≤ _
  omega

theorem ladder_converges : ∃ solution,
    (Solver.standard.solve Samples.ladder).result = .ok solution ∧
      solution.convergence = .converged ∧ solution.iterations ≤ 97 ∧
      solution.history.totalChanges ≤ 96 := by
  have heightAtMost : Samples.ladder.assembly.HeightAtMost 32 := Samples.lift.heightAtMost
  obtain ⟨found, solved⟩ : ∃ found, (Solver.standard.solve Samples.ladder).result = .ok found :=
    exists_ok_of_isSome (by decide +kernel)
  apply solve_converges Samples.ladder_lawful Samples.ladder_wellFormed heightAtMost
  · decide
  · simp [solved]

end Machine
end ReactiveReach
