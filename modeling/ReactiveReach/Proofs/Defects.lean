import Mathlib.Data.Prod.Lex
import ReactiveReach.Proofs.WellFormed
import ReactiveReach.Samples.Ladder

/-!
# The report on a machine that is not accepted

A defect of a machine is said here without the checks that look for it (`Machine.Defect`),
and so is the place where it belongs in a report (`Machine.placeOf`). The violations of a
machine are the one list that has every defect, has nothing else, and goes strictly
upwards in these places, so that it names no defect twice.
-/

namespace ReactiveReach

/-- The ids that repeat come in the order in which they are met for the second time. -/
theorem repeatedIds_pairwise (seen ids : List StateId) :
    (repeatedIds seen ids).Pairwise fun earlier later =>
      ids.idxOfNth earlier (1 - seen.count earlier) <
        ids.idxOfNth later (1 - seen.count later) := by
  induction ids generalizing seen with
  | nil => exact .nil
  | cons id rest ih =>
      have shift : ∀ other ∈ repeatedIds (id :: seen) rest,
          (id :: rest).idxOfNth other (1 - seen.count other) =
            rest.idxOfNth other (1 - (id :: seen).count other) + 1 := by
        intro other repeated
        have once := (mem_repeatedIds_iff.mp repeated).1
        by_cases same : id = other
        · subst same
          rw [List.count_cons_self] at once ⊢
          have fresh : seen.count id = 0 := by omega
          simp [fresh]
        · rw [List.count_cons_of_ne same, List.idxOfNth_cons_of_not_beq (by simpa using same)]
      have later : (repeatedIds (id :: seen) rest).Pairwise fun first second =>
          (id :: rest).idxOfNth first (1 - seen.count first) <
            (id :: rest).idxOfNth second (1 - seen.count second) := by
        refine (ih (id :: seen)).imp_of_mem fun firstMem secondMem less => ?_
        rw [shift _ firstMem, shift _ secondMem]
        exact Nat.succ_lt_succ less
      rw [repeatedIds]
      split
      · rename_i once
        refine List.pairwise_cons.mpr ⟨fun other repeated => ?_, later⟩
        rw [shift _ repeated, once]
        simp [List.idxOfNth_cons]
      · exact later

namespace Machine

variable {V P E : Type}

/-- The violation tells what is wrong with the machine. -/
inductive Defect (machine : Machine V P E) : Violation → Prop where
  | missingSeed : machine.states.countP (·.isSeed) = 0 → machine.Defect .missingSeed
  | multipleSeeds : 2 ≤ machine.states.countP (·.isSeed) →
      machine.Defect (.multipleSeeds ((machine.states.filter (·.isSeed)).map (·.id)))
  | duplicateState {id : StateId} : 2 ≤ (machine.states.map (·.id)).count id →
      machine.Defect (.duplicateState id)
  | unknownSource {index : Nat} {transition : Transition P} :
      machine.transitions[index]? = some transition →
      (¬∃ state ∈ machine.states, state.id = transition.source) →
      machine.Defect (.unknownSource index transition.source)
  | unknownTarget {index : Nat} {transition : Transition P} :
      machine.transitions[index]? = some transition →
      (¬∃ state ∈ machine.states, state.id = transition.target) →
      machine.Defect (.unknownTarget index transition.target)

/-- Where a violation belongs: first those about seeds, then each repeated id where it
occurs for the second time, then the endpoints of each transition, the source first. -/
def placeOf (machine : Machine V P E) : Violation → Nat ×ₗ Nat
  | .missingSeed => toLex (0, 0)
  | .multipleSeeds _ => toLex (0, 0)
  | .duplicateState id => toLex (1, (machine.states.map (·.id)).idxOfNth id 1)
  | .unknownSource index _ => toLex (2, 2 * index)
  | .unknownTarget index _ => toLex (2, 2 * index + 1)

/-- The report goes strictly upwards in places. -/
def InPlace (machine : Machine V P E) (report : List Violation) : Prop :=
  report.Pairwise fun earlier later => machine.placeOf earlier < machine.placeOf later

variable {machine : Machine V P E} {violation : Violation}

theorem mem_seedViolations_iff :
    violation ∈ machine.seedViolations ↔
      (machine.states.countP (·.isSeed) = 0 ∧ violation = .missingSeed) ∨
        2 ≤ machine.states.countP (·.isSeed) ∧ violation = .multipleSeeds machine.seeds := by
  rw [← length_seeds]
  rcases listed : machine.seeds with _ | ⟨first, _ | ⟨second, rest⟩⟩ <;>
    simp [seedViolations, listed]

theorem mem_endpointViolations_iff {number : Nat} {transition : Transition P} :
    violation ∈ machine.endpointViolations number transition ↔
      ((¬∃ state ∈ machine.states, state.id = transition.source) ∧
        violation = .unknownSource number transition.source) ∨
      (¬∃ state ∈ machine.states, state.id = transition.target) ∧
        violation = .unknownTarget number transition.target := by
  rw [endpointViolations, List.mem_append, ← knows_eq_false_iff, ← knows_eq_false_iff]
  cases machine.knows transition.source <;> cases machine.knows transition.target <;> simp

/-- A machine reports its defects and nothing else. -/
theorem mem_violations_iff : violation ∈ machine.violations ↔ machine.Defect violation := by
  simp only [violations, List.mem_append, mem_seedViolations_iff, List.mem_map,
    mem_repeatedIds_iff, List.count_nil, Nat.zero_le, true_and, Nat.zero_add,
    List.mem_flatMap, Prod.exists, List.mem_zipIdx_iff_getElem?, mem_endpointViolations_iff]
  constructor
  · rintro (((⟨noSeed, rfl⟩ | ⟨several, rfl⟩) | ⟨id, again, rfl⟩) |
      ⟨transition, index, found, (⟨unknown, rfl⟩ | ⟨unknown, rfl⟩)⟩)
    · exact .missingSeed noSeed
    · exact .multipleSeeds several
    · exact .duplicateState again
    · exact .unknownSource found unknown
    · exact .unknownTarget found unknown
  · intro defect
    cases defect with
    | missingSeed noSeed => exact .inl (.inl (.inl ⟨noSeed, rfl⟩))
    | multipleSeeds several => exact .inl (.inl (.inr ⟨several, rfl⟩))
    | duplicateState again => exact .inl (.inr ⟨_, again, rfl⟩)
    | unknownSource found unknown => exact .inr ⟨_, _, found, .inl ⟨unknown, rfl⟩⟩
    | unknownTarget found unknown => exact .inr ⟨_, _, found, .inr ⟨unknown, rfl⟩⟩

theorem placeOf_seedViolation (reported : violation ∈ machine.seedViolations) :
    machine.placeOf violation = toLex (0, 0) := by
  rcases mem_seedViolations_iff.mp reported with ⟨-, rfl⟩ | ⟨-, rfl⟩ <;> rfl

theorem placeOf_endpointViolation {number : Nat} {transition : Transition P}
    (reported : violation ∈ machine.endpointViolations number transition) :
    machine.placeOf violation = toLex (2, 2 * number) ∨
      machine.placeOf violation = toLex (2, 2 * number + 1) := by
  rcases mem_endpointViolations_iff.mp reported with ⟨-, rfl⟩ | ⟨-, rfl⟩
  · exact .inl rfl
  · exact .inr rfl

theorem seedViolations_inPlace : machine.InPlace machine.seedViolations := by
  rcases listed : machine.seeds with _ | ⟨first, _ | ⟨second, rest⟩⟩ <;>
    simp [InPlace, seedViolations, listed]

theorem repeatedIds_inPlace :
    machine.InPlace ((repeatedIds [] (machine.states.map (·.id))).map .duplicateState) := by
  refine List.pairwise_map.mpr ((repeatedIds_pairwise [] _).imp fun less => ?_)
  exact Prod.Lex.toLex_lt_toLex.mpr (.inr ⟨rfl, less⟩)

theorem endpointViolations_inPlace :
    machine.InPlace (machine.transitions.zipIdx.flatMap fun (transition, number) =>
      machine.endpointViolations number transition) := by
  refine List.pairwise_flatMap.mpr ⟨fun (transition, number) _ => ?_, ?_⟩
  · show machine.InPlace (machine.endpointViolations number transition)
    rw [InPlace, endpointViolations]
    split <;> split <;> simp [placeOf, Prod.Lex.toLex_lt_toLex]
  · have upwards : machine.transitions.zipIdx.Pairwise fun first second => first.2 < second.2 := by
      rw [← List.pairwise_map, List.zipIdx_map_snd]
      exact List.pairwise_lt_range'
    refine upwards.imp fun {first second} less earlier here later there => ?_
    rcases placeOf_endpointViolation here with place | place <;>
      rcases placeOf_endpointViolation there with otherPlace | otherPlace <;>
      rw [place, otherPlace, Prod.Lex.toLex_lt_toLex] <;> omega

theorem violations_inPlace : machine.InPlace machine.violations := by
  refine List.pairwise_append.mpr ⟨List.pairwise_append.mpr
    ⟨seedViolations_inPlace, repeatedIds_inPlace, ?_⟩, endpointViolations_inPlace, ?_⟩
  · intro earlier aboutSeeds later repeated
    obtain ⟨id, -, rfl⟩ := List.mem_map.mp repeated
    rw [placeOf_seedViolation aboutSeeds, placeOf, Prod.Lex.toLex_lt_toLex]
    exact .inl Nat.zero_lt_one
  · intro earlier before later atEndpoint
    obtain ⟨⟨transition, number⟩, -, there⟩ := List.mem_flatMap.mp atEndpoint
    have early : machine.placeOf earlier < toLex (2, 0) := by
      rcases List.mem_append.mp before with aboutSeeds | repeated
      · rw [placeOf_seedViolation aboutSeeds, Prod.Lex.toLex_lt_toLex]
        exact .inl Nat.zero_lt_two
      · obtain ⟨id, -, rfl⟩ := List.mem_map.mp repeated
        exact Prod.Lex.toLex_lt_toLex.mpr (.inl Nat.one_lt_two)
    refine lt_of_lt_of_le early ?_
    rcases placeOf_endpointViolation there with place | place <;>
      rw [place, Prod.Lex.toLex_le_toLex] <;> simp

/-- Places decide the order of a report. -/
theorem InPlace.eq {first second : List Violation} (inPlace : machine.InPlace first)
    (otherInPlace : machine.InPlace second)
    (same : ∀ violation, violation ∈ first ↔ violation ∈ second) : first = second := by
  have distinct : ∀ {report : List Violation}, machine.InPlace report → report.Nodup := by
    intro report inPlace
    refine inPlace.imp fun less equal => ?_
    rw [equal] at less
    exact lt_irrefl _ less
  have perm := (List.perm_ext_iff_of_nodup (distinct inPlace) (distinct otherInPlace)).mpr same
  refine perm.eq_of_pairwise ?_ inPlace otherInPlace
  intro earlier later _ _ less greater
  exact absurd less (lt_asymm greater)

/-- A machine is accepted if exactly one of its states is a seed, no two share an id, and
transitions join states. Otherwise the report is the list of its defects by place. -/
theorem violations_are_defects_in_place (machine : Machine V P E) :
    (machine.violations = [] ↔ machine.states.countP (·.isSeed) = 1 ∧
      (machine.states.map (·.id)).Nodup ∧
      ∀ transition ∈ machine.transitions,
        (∃ state ∈ machine.states, state.id = transition.source) ∧
          ∃ state ∈ machine.states, state.id = transition.target) ∧
    ∀ report : List Violation, report = machine.violations ↔
      (∀ violation, violation ∈ report ↔ machine.Defect violation) ∧ machine.InPlace report := by
  refine ⟨?_, fun report => ⟨?_, fun ⟨defects, inPlace⟩ => ?_⟩⟩
  · rw [violations_eq_nil_iff]
    constructor
    · intro wellFormed
      obtain ⟨seed, only⟩ := wellFormed.one_seed
      refine ⟨?_, wellFormed.distinct_ids, fun transition member =>
        ⟨knows_iff.mp (wellFormed.sources_known transition member),
          knows_iff.mp (wellFormed.targets_known transition member)⟩⟩
      rw [← length_seeds, only, List.length_singleton]
    · rintro ⟨oneSeed, distinct, known⟩
      rw [← length_seeds, List.length_eq_one_iff] at oneSeed
      exact ⟨oneSeed, distinct, fun transition member => knows_iff.mpr (known transition member).1,
        fun transition member => knows_iff.mpr (known transition member).2⟩
  · rintro rfl
    exact ⟨fun violation => mem_violations_iff, violations_inPlace⟩
  · exact inPlace.eq violations_inPlace fun violation =>
      (defects violation).trans mem_violations_iff.symm

-- Both seeds have one id, and the id of the rungs comes again before it does.
example : Machine.violations { Samples.ladder with
    states := [.seed "A", .ordinary "B", .ordinary "B", .seed "A", .ordinary "B"]
    transitions := [.triggered "A" "B", .triggered "C" "D", .reactive "B" "E"] } =
      [.multipleSeeds ["A", "A"], .duplicateState "B", .duplicateState "A",
        .unknownSource 1 "C", .unknownTarget 1 "D", .unknownTarget 2 "E"] := by decide

end Machine
end ReactiveReach
