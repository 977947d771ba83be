import Mathlib.Data.List.Forall2
import ReactiveReach.Machine.Draft
import ReactiveReach.Proofs.Results
import ReactiveReach.Samples.Ladder

/-!
# What drafts describe

Drafting steps describe exactly what they ask for. Of the steps that set a part the last
one counts, and steps that add to a part count in their order. No machine comes of steps
one of which drafts a transition without source or target, and the first such step is named.
If all transitions are complete, an assembly is asked for first and then a state. So steps
that concern different parts may trade places, and what is added to a finished machine might
as well have been added to its draft.
-/

namespace ReactiveReach

variable {α β V P E : Type}

/-- What the last of some steps sets a part to, if one does. -/
def lastSet (part? : α → Option β) (steps : List α) : Option β :=
  (steps.filterMap part?).getLast?

@[simp]
theorem lastSet_nil (part? : α → Option β) : lastSet part? [] = none :=
  rfl

theorem lastSet_cons (part? : α → Option β) (step : α) (steps : List α) :
    lastSet part? (step :: steps) = (lastSet part? steps).or (part? step) := by
  cases set : part? step with
  | none => simp [lastSet, set]
  | some value =>
      cases later : (steps.filterMap part?).getLast? <;>
        simp [lastSet, set, List.getLast?_cons, later]

theorem filterMap_eq_nil_iff_of_sets {part? : α → Option β} {set : β → α}
    (sets : ∀ {step value}, part? step = some value ↔ step = set value) (steps : List α) :
    steps.filterMap part? = [] ↔ ∀ value, set value ∉ steps := by
  simp only [List.filterMap_eq_nil_iff, Option.eq_none_iff_forall_ne_some, ne_eq, sets]
  constructor
  · intro never value member
    exact never _ member value rfl
  · rintro never step member value rfl
    exact never value member

theorem lastSet_eq_none_iff {part? : α → Option β} {set : β → α}
    (sets : ∀ {step value}, part? step = some value ↔ step = set value) (steps : List α) :
    lastSet part? steps = none ↔ ∀ value, set value ∉ steps := by
  rw [lastSet, List.getLast?_eq_none_iff, filterMap_eq_nil_iff_of_sets sets]

theorem exists_lastSet_iff {part? : α → Option β} {set : β → α}
    (sets : ∀ {step value}, part? step = some value ↔ step = set value) (steps : List α) :
    (∃ value, lastSet part? steps = some value) ↔ ∃ value, set value ∈ steps := by
  rw [← Option.ne_none_iff_exists', ne_eq, lastSet_eq_none_iff sets, not_forall]
  simp only [not_not]

/-! ## Transitions -/

/-- The parts of a transition. Every drafting step concerns one. -/
inductive TransitionPart where
  | source
  | target
  | trigger
  | guard
  | actions
  deriving DecidableEq

namespace TransitionStep

@[simp]
def part : TransitionStep P → TransitionPart
  | .from _ => .source
  | .to _ => .target
  | .triggerable | .reactive => .trigger
  | .guard _ | .when _ => .guard
  | .action _ => .actions

@[simp]
def source? : TransitionStep P → Option StateId
  | .from state => some state
  | _ => none

@[simp]
def target? : TransitionStep P → Option StateId
  | .to state => some state
  | _ => none

/-- Whether the transition is to be triggerable, where the step says so. -/
@[simp]
def triggerable? : TransitionStep P → Option Bool
  | .triggerable => some true
  | .reactive => some false
  | _ => none

@[simp]
def guard? : TransitionStep P → Option (Guard P)
  | .guard condition => some condition
  | .when predicate => some (.holds predicate)
  | _ => none

@[simp]
def action? : TransitionStep P → Option Action
  | .action sent => some sent
  | _ => none

theorem source?_eq_some_iff {step : TransitionStep P} {state : StateId} :
    step.source? = some state ↔ step = .from state := by
  cases step <;> simp

theorem target?_eq_some_iff {step : TransitionStep P} {state : StateId} :
    step.target? = some state ↔ step = .to state := by
  cases step <;> simp

end TransitionStep

namespace Transition

/-- A transition that is what some steps ask for. -/
structure AsAsked (steps : List (TransitionStep P)) (transition : Transition P) : Prop where
  source : lastSet TransitionStep.source? steps = some transition.source
  target : lastSet TransitionStep.target? steps = some transition.target
  triggerable : (lastSet TransitionStep.triggerable? steps).getD true = transition.triggerable
  guard : (lastSet TransitionStep.guard? steps).getD .always = transition.guard
  actions : steps.filterMap TransitionStep.action? = transition.actions

/-- What keeps steps from describing a transition. A missing target only counts if there is
a source. -/
inductive Lacks (steps : List (TransitionStep P)) : DraftError → Prop
  | source : (∀ state, .from state ∉ steps) → Lacks steps .missingSource
  | target {source : StateId} : .from source ∈ steps → (∀ state, .to state ∉ steps) →
      Lacks steps .missingTarget

end Transition

namespace TransitionDraft

theorem apply_eq (draft : TransitionDraft P) (step : TransitionStep P) :
    draft.apply step =
      ⟨step.source?.or draft.source, step.target?.or draft.target,
        step.triggerable?.getD draft.triggerable, step.guard?.getD draft.guard,
        draft.actions ++ step.action?.toList⟩ := by
  cases step <;> simp [apply]

theorem foldl_apply (draft : TransitionDraft P) (steps : List (TransitionStep P)) :
    steps.foldl apply draft =
      ⟨(lastSet TransitionStep.source? steps).or draft.source,
        (lastSet TransitionStep.target? steps).or draft.target,
        (lastSet TransitionStep.triggerable? steps).getD draft.triggerable,
        (lastSet TransitionStep.guard? steps).getD draft.guard,
        draft.actions ++ steps.filterMap TransitionStep.action?⟩ := by
  induction steps generalizing draft with
  | nil => simp
  | cons step steps ih =>
      rw [List.foldl_cons, ih, apply_eq]
      simp [lastSet_cons, Option.or_assoc, List.filterMap_eq_flatMap_toList]

theorem apply_comm (draft : TransitionDraft P) {first second : TransitionStep P}
    (apart : first.part ≠ second.part) :
    (draft.apply first).apply second = (draft.apply second).apply first := by
  cases first <;> cases second <;> simp [apply] at apart ⊢

end TransitionDraft

namespace Transition

variable {steps : List (TransitionStep P)}

theorem ofSteps_eq (steps : List (TransitionStep P)) :
    ofSteps steps =
      match lastSet TransitionStep.source? steps, lastSet TransitionStep.target? steps with
      | none, _ => .error .missingSource
      | some _, none => .error .missingTarget
      | some source, some target =>
        .ok ⟨source, target, (lastSet TransitionStep.triggerable? steps).getD true,
          (lastSet TransitionStep.guard? steps).getD .always,
          steps.filterMap TransitionStep.action?⟩ := by
  rw [ofSteps, TransitionDraft.foldl_apply]
  cases lastSet TransitionStep.source? steps <;>
    cases lastSet TransitionStep.target? steps <;> rfl

theorem ofSteps_eq_ok_iff {transition : Transition P} :
    ofSteps steps = .ok transition ↔ transition.AsAsked steps := by
  rw [ofSteps_eq]
  constructor
  · intro described
    split at described
    · cases described
    · cases described
    · rename_i source target
      obtain rfl := Except.ok.inj described
      exact ⟨source, target, rfl, rfl, rfl⟩
  · intro asAsked
    rw [asAsked.source, asAsked.target]
    simp only [asAsked.triggerable, asAsked.guard, asAsked.actions]

theorem ofSteps_eq_error_iff {error : DraftError} :
    ofSteps steps = .error error ↔ Lacks steps error := by
  have noSource_iff := lastSet_eq_none_iff TransitionStep.source?_eq_some_iff steps
  have noTarget_iff := lastSet_eq_none_iff TransitionStep.target?_eq_some_iff steps
  have source_iff := exists_lastSet_iff TransitionStep.source?_eq_some_iff steps
  rw [ofSteps_eq]
  constructor
  · intro failed
    split at failed
    · rename_i noSource
      obtain rfl := Except.error.inj failed
      exact .source (noSource_iff.mp noSource)
    · rename_i source isSource noTarget
      obtain rfl := Except.error.inj failed
      obtain ⟨source, sourceStep⟩ := source_iff.mp ⟨source, isSource⟩
      exact .target sourceStep (noTarget_iff.mp noTarget)
    · cases failed
  · intro lacks
    cases lacks with
    | source noSource => rw [noSource_iff.mpr noSource]
    | target sourceStep noTarget =>
        obtain ⟨source, isSource⟩ := source_iff.mpr ⟨_, sourceStep⟩
        rw [isSource, noTarget_iff.mpr noTarget]

theorem ofSteps_swap {first second : TransitionStep P} (apart : first.part ≠ second.part)
    (before after : List (TransitionStep P)) :
    ofSteps (before ++ first :: second :: after) =
      ofSteps (before ++ second :: first :: after) := by
  simp only [ofSteps, List.foldl_append, List.foldl_cons, TransitionDraft.apply_comm _ apart]

end Transition

/-! ## Machines -/

/-- The parts of a machine. Every drafting step concerns one: the three ways to add a state
concern the states, and the three ways to add transitions concern the transitions. -/
inductive MachinePart where
  | name
  | assembly
  | states
  | transitions
  | exits
  deriving DecidableEq

namespace MachineStep

@[simp]
def part : MachineStep V P E → MachinePart
  | .name _ => .name
  | .assembly _ => .assembly
  | .seed _ | .ordinary _ | .state _ => .states
  | .draftTransition _ | .transition _ | .transitions _ => .transitions
  | .exits _ => .exits

@[simp]
def name? : MachineStep V P E → Option String
  | .name text => some text
  | _ => none

@[simp]
def assembly? : MachineStep V P E → Option (Assembly V P E)
  | .assembly operations => some operations
  | _ => none

/-- The state that a step adds, under its own name or as it is given. -/
@[simp]
def state? : MachineStep V P E → Option State
  | .seed text => some ⟨text, text, true⟩
  | .ordinary text => some ⟨text, text, false⟩
  | .state added => some added
  | _ => none

@[simp]
def exits? : MachineStep V P E → Option (State → V → Except E (List (ExitZone P)))
  | .exits rule => some rule
  | _ => none

/-- The transitions that a step adds, where drafted ones are as they are asked for. -/
inductive Adds : MachineStep V P E → List (Transition P) → Prop
  | drafted {steps : List (TransitionStep P)} {transition : Transition P} :
      transition.AsAsked steps → Adds (.draftTransition steps) [transition]
  | one (transition : Transition P) : Adds (.transition transition) [transition]
  | several (transitions : List (Transition P)) : Adds (.transitions transitions) transitions
  | none {step : MachineStep V P E} : step.part ≠ .transitions → Adds step []

/-- The error with which a step cannot be carried out. -/
inductive Fails : MachineStep V P E → DraftError → Prop
  | drafted {steps : List (TransitionStep P)} {error : DraftError} :
      Transition.Lacks steps error → Fails (.draftTransition steps) error

/-- No step drafts a transition that lacks an end. -/
def NoneFails (steps : List (MachineStep V P E)) : Prop :=
  ∀ step ∈ steps, ∀ error, ¬step.Fails error

theorem assembly?_eq_some_iff {step : MachineStep V P E} {assembly : Assembly V P E} :
    step.assembly? = some assembly ↔ step = .assembly assembly := by
  cases step <;> simp

end MachineStep

namespace Machine

/-- A machine that is what some steps ask for. -/
structure AsAsked (steps : List (MachineStep V P E)) (machine : Machine V P E) : Prop where
  name : (lastSet MachineStep.name? steps).getD "machine" = machine.name
  assembly : lastSet MachineStep.assembly? steps = some machine.assembly
  states : steps.filterMap MachineStep.state? = machine.states
  has_states : machine.states ≠ []
  transitions : ∃ added, List.Forall₂ MachineStep.Adds steps added ∧
    added.flatten = machine.transitions
  exits : ((lastSet MachineStep.exits? steps).getD fun _ _ => .ok []) = machine.exits

/-- Why steps describe no machine. A reason only counts where none of those before it
holds, and of steps that fail only the first counts. -/
inductive Unfinished (steps : List (MachineStep V P E)) : DraftFailure → Prop
  | step {before after : List (MachineStep V P E)} {failing : MachineStep V P E}
      {error : DraftError} : steps = before ++ failing :: after →
      MachineStep.NoneFails before → failing.Fails error →
      Unfinished steps ⟨some before.length, error⟩
  | assembly : MachineStep.NoneFails steps → (∀ assembly, .assembly assembly ∉ steps) →
      Unfinished steps ⟨none, .missingAssembly⟩
  | states {assembly : Assembly V P E} : MachineStep.NoneFails steps →
      .assembly assembly ∈ steps → (∀ step ∈ steps, step.state? = none) →
      Unfinished steps ⟨none, .noStates⟩

/-- A state or transition that is added to a finished machine. -/
inductive Addition (P : Type) where
  | state (state : State)
  | transition (transition : Transition P)

def add (machine : Machine V P E) : Addition P → Machine V P E
  | .state added => machine.addState added
  | .transition added => machine.addTransition added

/-- The drafting step that makes the same addition. -/
def Addition.step : Addition P → MachineStep V P E
  | .state added => .state added
  | .transition added => .transition added

end Machine

namespace MachineDraft

variable {draft next last : MachineDraft V P E} {step : MachineStep V P E}
  {steps : List (MachineStep V P E)}

/-- What one step does to a draft. -/
theorem apply_eq_ok_iff :
    draft.apply step = .ok next ↔ ∃ added, step.Adds added ∧
      ⟨step.name?.getD draft.name, step.assembly?.or draft.assembly,
        draft.states ++ step.state?.toList, draft.transitions ++ added,
        step.exits?.or draft.exits⟩ = next := by
  constructor
  · intro applied
    cases step with
    | draftTransition drafted =>
        simp only [apply, bind_eq_ok, pure_eq_ok] at applied
        obtain ⟨transition, described, rfl⟩ := applied
        refine ⟨_, .drafted (Transition.ofSteps_eq_ok_iff.mp described), ?_⟩
        simp
    | transition transition =>
        obtain rfl := Except.ok.inj applied
        refine ⟨_, .one transition, ?_⟩
        simp
    | transitions transitions =>
        obtain rfl := Except.ok.inj applied
        refine ⟨_, .several transitions, ?_⟩
        simp
    | name _ | assembly _ | seed _ | ordinary _ | state _ | exits _ =>
        obtain rfl := Except.ok.inj applied
        refine ⟨_, .none (by simp), ?_⟩
        simp [addState, State.seed, State.ordinary]
  · rintro ⟨added, adds, rfl⟩
    cases adds with
    | drafted asAsked =>
        rw [apply, Transition.ofSteps_eq_ok_iff.mpr asAsked]
        simp
    | one transition | several transitions =>
        simp [apply]
    | none elsewhere =>
        cases step <;> simp [apply, addState, State.seed, State.ordinary] at elsewhere ⊢

theorem apply_eq_error_iff {error : DraftError} :
    draft.apply step = .error error ↔ step.Fails error := by
  cases step with
  | draftTransition drafted =>
      have fails : (MachineStep.draftTransition drafted : MachineStep V P E).Fails error ↔
          Transition.Lacks drafted error := ⟨fun | .drafted lacks => lacks, .drafted⟩
      rw [fails, ← Transition.ofSteps_eq_error_iff, apply]
      cases Transition.ofSteps drafted <;> simp [pure, Except.pure]
  | _ =>
      simp only [apply, reduceCtorEq, false_iff]
      rintro ⟨⟩

theorem foldlM_apply_eq_ok_iff :
    steps.foldlM apply draft = .ok last ↔ ∃ added, List.Forall₂ MachineStep.Adds steps added ∧
      ⟨(lastSet MachineStep.name? steps).getD draft.name,
        (lastSet MachineStep.assembly? steps).or draft.assembly,
        draft.states ++ steps.filterMap MachineStep.state?,
        draft.transitions ++ added.flatten,
        (lastSet MachineStep.exits? steps).or draft.exits⟩ = last := by
  induction steps generalizing draft with
  | nil => simp
  | cons step steps ih =>
      simp only [List.foldlM_cons, bind_eq_ok, apply_eq_ok_iff, ih]
      constructor
      · rintro ⟨_, ⟨first, adds, rfl⟩, rest, eachAdds, rfl⟩
        refine ⟨first :: rest, .cons adds eachAdds, ?_⟩
        simp [lastSet_cons, Option.or_assoc, List.filterMap_eq_flatMap_toList]
      · rintro ⟨_, _ | ⟨adds, eachAdds⟩, rfl⟩
        refine ⟨_, ⟨_, adds, rfl⟩, _, eachAdds, ?_⟩
        simp [lastSet_cons, Option.or_assoc, List.filterMap_eq_flatMap_toList]

theorem apply_comm (draft : MachineDraft V P E) {first second : MachineStep V P E}
    (apart : first.part ≠ second.part) :
    (draft.apply first >>= fun next => next.apply second) =
      draft.apply second >>= fun next => next.apply first := by
  cases first <;> cases second <;> simp [apply, addState, bind_ok_eq_map] at apart ⊢

/-! ### Whole sequences -/

theorem mapError_applyAll (draft : MachineDraft V P E) (number : Nat)
    (steps : List (MachineStep V P E)) :
    (draft.applyAll number steps).mapError (·.error) = steps.foldlM apply draft := by
  induction steps generalizing draft number with
  | nil => rfl
  | cons step steps ih =>
      rw [applyAll, List.foldlM_cons]
      cases draft.apply step with
      | error error => rfl
      | ok next => exact ih next (number + 1)

theorem applyAll_eq_ok_iff {number : Nat} :
    draft.applyAll number steps = .ok last ↔ steps.foldlM apply draft = .ok last := by
  rw [← mapError_applyAll draft number, mapError_eq_ok]

theorem not_fails_of_apply (applied : draft.apply step = .ok next) (error : DraftError) :
    ¬step.Fails error := by
  intro fails
  rw [apply_eq_error_iff.mpr fails] at applied
  cases applied

theorem exists_applyAll_iff {number : Nat} :
    (∃ last, draft.applyAll number steps = .ok last) ↔ MachineStep.NoneFails steps := by
  induction steps generalizing draft number with
  | nil => simp [applyAll, MachineStep.NoneFails]
  | cons step steps ih =>
      rw [applyAll, MachineStep.NoneFails, List.forall_mem_cons]
      cases applied : draft.apply step with
      | error error =>
          simp only [reduceCtorEq, exists_false, false_iff, not_and]
          intro passes
          exact absurd (apply_eq_error_iff.mp applied) (passes error)
      | ok next =>
          rw [and_iff_right (not_fails_of_apply applied)]
          exact ih

theorem applyAll_append (draft : MachineDraft V P E) (number : Nat)
    (before after : List (MachineStep V P E)) :
    draft.applyAll number (before ++ after) =
      draft.applyAll number before >>= fun next =>
        next.applyAll (number + before.length) after := by
  induction before generalizing draft number with
  | nil => rfl
  | cons step before ih =>
      rw [List.cons_append, applyAll, applyAll, List.length_cons, Nat.add_comm before.length,
        ← Nat.add_assoc]
      cases draft.apply step with
      | error error => rfl
      | ok next => exact ih next (number + 1)

/-- Carrying out steps fails at the first one that fails. -/
theorem applyAll_eq_error_iff {number : Nat} {failure : DraftFailure} :
    draft.applyAll number steps = .error failure ↔
      ∃ before failing after error, steps = before ++ failing :: after ∧
        MachineStep.NoneFails before ∧ failing.Fails error ∧
        failure = ⟨some (number + before.length), error⟩ := by
  constructor
  · intro failed
    induction steps generalizing draft number with
    | nil => cases failed
    | cons step steps ih =>
        rw [applyAll] at failed
        cases applied : draft.apply step with
        | error error =>
            rw [applied] at failed
            obtain rfl := Except.error.inj failed
            have fails := apply_eq_error_iff.mp applied
            exact ⟨[], step, steps, error, rfl, by simp [MachineStep.NoneFails], fails, rfl⟩
        | ok next =>
            rw [applied] at failed
            obtain ⟨before, failing, after, error, rfl, passed, fails, rfl⟩ := ih failed
            have passes := not_fails_of_apply applied
            refine ⟨step :: before, failing, after, error, rfl,
              List.forall_mem_cons.mpr ⟨passes, passed⟩, fails, ?_⟩
            rw [List.length_cons, Nat.add_right_comm, Nat.add_assoc]
  · rintro ⟨before, failing, after, error, rfl, passed, fails, rfl⟩
    obtain ⟨next, applied⟩ := exists_applyAll_iff.mpr passed
    rw [applyAll_append, applied, ok_bind, applyAll, apply_eq_error_iff.mpr fails]

theorem finish_eq (draft : MachineDraft V P E) :
    draft.finish =
      match draft.assembly, draft.states with
      | none, _ => .error .missingAssembly
      | some _, [] => .error .noStates
      | some assembly, _ :: _ =>
        .ok ⟨draft.name, assembly, draft.states, draft.transitions,
          draft.exits.getD fun _ _ => .ok []⟩ := by
  obtain ⟨name, assembly, states, transitions, exits⟩ := draft
  cases assembly <;> cases states <;> rfl

theorem finish_eq_ok_iff {machine : Machine V P E} :
    draft.finish = .ok machine ↔
      draft.assembly = some machine.assembly ∧ machine.states ≠ [] ∧
        draft.name = machine.name ∧ draft.states = machine.states ∧
        draft.transitions = machine.transitions ∧
        (draft.exits.getD fun _ _ => .ok []) = machine.exits := by
  rw [finish_eq]
  constructor
  · intro finished
    split at finished
    · cases finished
    · cases finished
    · rename_i assembly state states isAssembly hasStates
      obtain rfl := Except.ok.inj finished
      exact ⟨isAssembly, by simp [hasStates], rfl, rfl, rfl, rfl⟩
  · rintro ⟨assembly, hasStates, name, states, transitions, exits⟩
    obtain ⟨state, others, nonempty⟩ := List.exists_cons_of_ne_nil hasStates
    rw [assembly, states, nonempty]
    simp only [← nonempty, name, transitions, exits]

theorem finish_eq_error_iff {error : DraftError} :
    draft.finish = .error error ↔
      draft.assembly = none ∧ error = .missingAssembly ∨
        (∃ assembly, draft.assembly = some assembly) ∧ draft.states = [] ∧
          error = .noStates := by
  rw [finish_eq]
  cases draft.assembly <;> cases draft.states <;> simp [eq_comm]

/-- What is added to a draft is added to the machine that comes of it. -/
theorem finish_addition {machine : Machine V P E} (finished : draft.finish = .ok machine)
    (addition : Machine.Addition P) :
    ∃ next, draft.apply addition.step = .ok next ∧ next.finish = .ok (machine.add addition) := by
  obtain ⟨assembly, hasStates, name, states, transitions, exits⟩ := finish_eq_ok_iff.mp finished
  cases addition with
  | state state =>
      refine ⟨_, rfl, finish_eq_ok_iff.mpr ⟨assembly, ?_, name, ?_, transitions, exits⟩⟩
      · simp [Machine.add, Machine.addState]
      · simp [Machine.add, Machine.addState, addState, states]
  | transition transition =>
      refine ⟨_, rfl, finish_eq_ok_iff.mpr ⟨assembly, hasStates, name, states, ?_, exits⟩⟩
      simp [Machine.add, Machine.addTransition, transitions]

theorem finish_additions {machine : Machine V P E} (finished : draft.finish = .ok machine)
    (additions : List (Machine.Addition P)) :
    ∃ last, (additions.map (·.step)).foldlM apply draft = .ok last ∧
      last.finish = .ok (additions.foldl Machine.add machine) := by
  induction additions generalizing draft machine with
  | nil => exact ⟨draft, rfl, finished⟩
  | cons addition additions ih =>
      obtain ⟨next, applied, nextFinished⟩ := finish_addition finished addition
      obtain ⟨last, appliedAll, lastFinished⟩ := ih nextFinished
      refine ⟨last, ?_, lastFinished⟩
      rw [List.map_cons, List.foldlM_cons, applied, ok_bind, appliedAll]

end MachineDraft

namespace Machine

variable {steps : List (MachineStep V P E)} {machine : Machine V P E}

/-- Which machine or error comes of steps, apart from the number of a step that fails. -/
theorem mapError_ofSteps (steps : List (MachineStep V P E)) :
    (ofSteps steps).mapError (·.error) =
      steps.foldlM MachineDraft.apply .blank >>= MachineDraft.finish := by
  rw [ofSteps, mapError_bind, MachineDraft.mapError_applyAll]
  congr 1
  funext draft
  cases draft.finish <;> rfl

theorem ofSteps_eq_ok_iff_exists_draft :
    ofSteps steps = .ok machine ↔
      ∃ draft, steps.foldlM MachineDraft.apply .blank = .ok draft ∧
        draft.finish = .ok machine := by
  rw [← bind_eq_ok, ← mapError_ofSteps, mapError_eq_ok]

theorem ofSteps_eq_ok_iff : ofSteps steps = .ok machine ↔ machine.AsAsked steps := by
  simp only [ofSteps_eq_ok_iff_exists_draft, MachineDraft.foldlM_apply_eq_ok_iff,
    MachineDraft.finish_eq_ok_iff]
  constructor
  · rintro ⟨_, ⟨added, eachAdds, rfl⟩, assembly, hasStates, name, states, transitions, exits⟩
    simp only [MachineDraft.blank, Option.or_none] at assembly exits
    exact ⟨name, assembly, states, hasStates, ⟨added, eachAdds, transitions⟩, exits⟩
  · rintro ⟨name, assembly, states, hasStates, ⟨added, eachAdds, transitions⟩, exits⟩
    refine ⟨_, ⟨added, eachAdds, rfl⟩, ?_, hasStates, name, states, transitions, ?_⟩
    · simpa [MachineDraft.blank] using assembly
    · simpa [MachineDraft.blank] using exits

theorem ofSteps_eq_error_iff {failure : DraftFailure} :
    ofSteps steps = .error failure ↔ Unfinished steps failure := by
  have noAssembly_iff := lastSet_eq_none_iff MachineStep.assembly?_eq_some_iff steps
  have assembly_iff := exists_lastSet_iff MachineStep.assembly?_eq_some_iff steps
  have drafted {draft : MachineDraft V P E}
      (applied : MachineDraft.blank.applyAll 0 steps = .ok draft) :
      draft.assembly = lastSet MachineStep.assembly? steps ∧
        draft.states = steps.filterMap MachineStep.state? := by
    rw [MachineDraft.applyAll_eq_ok_iff, MachineDraft.foldlM_apply_eq_ok_iff] at applied
    obtain ⟨added, -, rfl⟩ := applied
    simp [MachineDraft.blank]
  rw [ofSteps, bind_eq_error]
  simp only [MachineDraft.applyAll_eq_error_iff, mapError_eq_error,
    MachineDraft.finish_eq_error_iff, Nat.zero_add]
  constructor
  · rintro (⟨before, failing, after, error, split, passed, fails, rfl⟩ |
      ⟨draft, applied, error, lacks, rfl⟩)
    · exact .step split passed fails
    · have passed := MachineDraft.exists_applyAll_iff.mp ⟨draft, applied⟩
      obtain ⟨assembly, states⟩ := drafted applied
      rw [assembly, states, noAssembly_iff, assembly_iff, List.filterMap_eq_nil_iff] at lacks
      rcases lacks with ⟨noAssembly, rfl⟩ | ⟨⟨_, isAssembly⟩, noState, rfl⟩
      · exact .assembly passed noAssembly
      · exact .states passed isAssembly noState
  · intro unfinished
    cases unfinished with
    | step split passed fails => exact .inl ⟨_, _, _, _, split, passed, fails, rfl⟩
    | assembly passed noAssembly =>
        obtain ⟨draft, applied⟩ := MachineDraft.exists_applyAll_iff.mpr passed
        obtain ⟨assembly, -⟩ := drafted applied
        have missing := noAssembly_iff.mpr noAssembly
        exact .inr ⟨draft, applied, _, .inl ⟨assembly.trans missing, rfl⟩, rfl⟩
    | states passed isAssembly noState =>
        obtain ⟨draft, applied⟩ := MachineDraft.exists_applyAll_iff.mpr passed
        obtain ⟨assembly, states⟩ := drafted applied
        have present := assembly_iff.mpr ⟨_, isAssembly⟩
        have missing := List.filterMap_eq_nil_iff.mpr noState
        rw [← assembly] at present
        exact .inr ⟨draft, applied, _, .inr ⟨present, states.trans missing, rfl⟩, rfl⟩

theorem ofSteps_swap {first second : MachineStep V P E} (apart : first.part ≠ second.part)
    (before after : List (MachineStep V P E)) :
    (ofSteps (before ++ first :: second :: after)).mapError (·.error) =
      (ofSteps (before ++ second :: first :: after)).mapError (·.error) := by
  have swapped (draft : MachineDraft V P E) :
      (first :: second :: after).foldlM MachineDraft.apply draft =
        (second :: first :: after).foldlM MachineDraft.apply draft := by
    simp only [List.foldlM_cons, ← bind_assoc, MachineDraft.apply_comm draft apart]
  simp only [mapError_ofSteps, List.foldlM_append, swapped]

theorem ofSteps_additions (described : ofSteps steps = .ok machine)
    (additions : List (Addition P)) :
    ofSteps (steps ++ additions.map (·.step)) = .ok (additions.foldl add machine) := by
  rw [ofSteps_eq_ok_iff_exists_draft] at described ⊢
  obtain ⟨draft, applied, finished⟩ := described
  rw [List.foldlM_append, applied]
  exact MachineDraft.finish_additions finished additions

/-- Steps describe exactly the machine they ask for, or the first reason why there is none.
Steps that concern different parts may trade places, for machines and for transitions, and
what is added to the machine might as well have been added before. -/
theorem drafted_as_asked :
    (∀ (steps : List (MachineStep V P E)) (machine : Machine V P E),
      ofSteps steps = .ok machine ↔ machine.AsAsked steps) ∧
    (∀ (steps : List (MachineStep V P E)) (failure : DraftFailure),
      ofSteps steps = .error failure ↔ Unfinished steps failure) ∧
    (∀ (first second : MachineStep V P E), first.part ≠ second.part → ∀ before after,
      (ofSteps (before ++ first :: second :: after)).mapError (·.error) =
        (ofSteps (before ++ second :: first :: after)).mapError (·.error)) ∧
    (∀ (first second : TransitionStep P), first.part ≠ second.part → ∀ before after,
      Transition.ofSteps (before ++ first :: second :: after) =
        Transition.ofSteps (before ++ second :: first :: after)) ∧
    ∀ (steps : List (MachineStep V P E)) (machine : Machine V P E), ofSteps steps = .ok machine →
      ∀ additions : List (Addition P),
        ofSteps (steps ++ additions.map (·.step)) = .ok (additions.foldl add machine) := by
  refine ⟨?described, ?refused, ?machineSteps, ?transitionSteps, ?additions⟩
  case described => exact fun _ _ => ofSteps_eq_ok_iff
  case refused => exact fun _ _ => ofSteps_eq_error_iff
  case machineSteps => exact fun _ _ apart => ofSteps_swap apart
  case transitionSteps => exact fun _ _ apart => Transition.ofSteps_swap apart
  case additions => exact fun _ _ described => ofSteps_additions described

/-- The steps for the ladder ask for the ladder, and ask for a landing as well if it is added
to the ladder. Of two ways without a source or target the first is to blame, even where
nothing else is given. -/
theorem ladder_drafted_as_asked :
    Samples.ladder.AsAsked Samples.ladderSteps ∧
    Unfinished (V := UInt32) (P := UInt32) (E := Samples.BitError)
      [.name "ladder", .draftTransition [.to "A"], .draftTransition [.from "A"]]
      ⟨some 1, .missingSource⟩ ∧
    (ofSteps (.draftTransition [] :: .seed "Seed" :: Samples.ladderSteps)).mapError (·.error) =
      (ofSteps (.seed "Seed" :: .draftTransition [] :: Samples.ladderSteps)).mapError
        (·.error) ∧
    Transition.ofSteps [.from "A", .when (7 : UInt32), .reactive, .to "B"] =
      Transition.ofSteps [.from "A", .reactive, .when 7, .to "B"] ∧
    ofSteps (Samples.ladderSteps ++ [.state (.ordinary "D"), .transition (.triggered "C" "D")]) =
      .ok ((Samples.ladder.addState (.ordinary "D")).addTransition (.triggered "C" "D")) := by
  have ⟨described, refused, machineSteps, transitionSteps, additions⟩ :=
    drafted_as_asked (V := UInt32) (P := UInt32) (E := Samples.BitError)
  refine ⟨?_, ?_, ?_, ?_, ?_⟩
  · exact (described Samples.ladderSteps Samples.ladder).mp rfl
  · exact (refused _ _).mp rfl
  · exact machineSteps (.draftTransition []) (.seed "Seed") (by decide) [] Samples.ladderSteps
  · exact transitionSteps (.when 7) .reactive (by decide) [.from "A"] [.to "B"]
  · exact additions Samples.ladderSteps Samples.ladder rfl
      [.state (.ordinary "D"), .transition (.triggered "C" "D")]

end Machine
end ReactiveReach
