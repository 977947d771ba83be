import Mathlib.Data.List.Forall2
import ReactiveReach.Logged

/-!
# Results of computations

What the successes of a computation say about its parts. The result of a logged
computation is that of the same computation without a log, so the theorems about
results never look at events.
-/

namespace ReactiveReach

variable {ω ε δ α β : Type}

@[simp]
theorem ok_bind (value : α) (next : α → Except ε β) :
    (Except.ok value >>= next) = next value :=
  rfl

@[simp]
theorem error_bind (failure : ε) (next : α → Except ε β) :
    (Except.error failure >>= next) = .error failure :=
  rfl

theorem bind_eq_ok {first : Except ε α} {next : α → Except ε β} {value : β} :
    (first >>= next) = .ok value ↔
      ∃ middle, first = .ok middle ∧ next middle = .ok value := by
  cases first <;> simp [bind, Except.bind]

theorem bind_eq_error {first : Except ε α} {next : α → Except ε β} {failure : ε} :
    (first >>= next) = .error failure ↔
      first = .error failure ∨ ∃ middle, first = .ok middle ∧ next middle = .error failure := by
  cases first <;> simp [bind, Except.bind]

theorem map_eq_ok {computation : Except ε α} {view : α → β} {value : β} :
    (view <$> computation) = .ok value ↔
      ∃ original, computation = .ok original ∧ view original = value := by
  cases computation <;> simp [Functor.map, Except.map]

theorem bind_ok_eq_map (computation : Except ε α) (view : α → β) :
    (computation >>= fun value => .ok (view value)) = view <$> computation := by
  cases computation <;> rfl

@[simp]
theorem map_eq_error {computation : Except ε α} {view : α → β} {failure : ε} :
    (view <$> computation) = .error failure ↔ computation = .error failure := by
  cases computation <;> simp [Functor.map, Except.map]

@[simp]
theorem pure_eq_ok {value other : α} :
    (pure value : Except ε α) = .ok other ↔ value = other := by
  simp [pure, Except.pure]

@[simp]
theorem mapError_eq_ok {computation : Except ε α} {view : ε → δ} {value : α} :
    computation.mapError view = .ok value ↔ computation = .ok value := by
  cases computation <;> simp [Except.mapError]

theorem mapError_eq_error {computation : Except ε α} {view : ε → δ} {failure : δ} :
    computation.mapError view = .error failure ↔
      ∃ cause, computation = .error cause ∧ view cause = failure := by
  cases computation <;> simp [Except.mapError]

theorem mapError_map {computation : Except ε α} {view : ε → δ} {change : α → β} :
    (change <$> computation).mapError view = change <$> computation.mapError view := by
  cases computation <;> rfl

theorem mapError_bind {first : Except ε α} {next : α → Except ε β} {view : ε → δ} :
    (first >>= next).mapError view =
      first.mapError view >>= fun value => (next value).mapError view := by
  cases first <;> rfl

theorem mapError_mapM (operation : α → Except ε β) (view : ε → δ) (members : List α) :
    (members.mapM operation).mapError view =
      members.mapM fun member => (operation member).mapError view := by
  induction members with
  | nil => rfl
  | cons member members ih =>
      simp only [List.mapM_cons, mapError_bind, ih]
      rfl

theorem mapError_foldlM (step : β → α → Except ε β) (view : ε → δ) (members : List α)
    (start : β) :
    (members.foldlM step start).mapError view =
      members.foldlM (fun state member => (step state member).mapError view) start := by
  induction members generalizing start with
  | nil => rfl
  | cons member members ih => simp only [List.foldlM_cons, mapError_bind, ih]

/-- A result that can be computed can be inspected. -/
theorem exists_ok_of_any {computation : Except ε α} {holds : α → Prop} [DecidablePred holds]
    (computed : computation.toOption.any (fun value => decide (holds value)) = true) :
    ∃ value, computation = .ok value ∧ holds value := by
  cases computation with
  | error failure => simp [Except.toOption] at computed
  | ok value => exact ⟨value, rfl, by simpa [Except.toOption] using computed⟩

theorem exists_ok_of_isSome {computation : Except ε α}
    (computed : computation.toOption.isSome = true) : ∃ value, computation = .ok value := by
  cases computation with
  | error failure => simp [Except.toOption] at computed
  | ok value => exact ⟨value, rfl⟩

theorem eq_error_of_computed [DecidableEq ε] {computation : Except ε α} {failure : ε}
    (computed : (match computation with
      | .error found => decide (found = failure)
      | .ok _ => false) = true) : computation = .error failure := by
  cases computation with
  | error found => rw [of_decide_eq_true computed]
  | ok value => simp at computed

/-- Applying an operation to every member of a list succeeds when it succeeds
for each of them, and then keeps the order. -/
theorem mapM_eq_ok {operation : α → Except ε β} {members : List α} {values : List β} :
    members.mapM operation = .ok values ↔
      List.Forall₂ (fun member value => operation member = .ok value) members values := by
  induction members generalizing values with
  | nil => cases values <;> simp
  | cons member members ih =>
      simp only [List.mapM_cons, bind_eq_ok, pure_eq_ok]
      constructor
      · rintro ⟨value, first, values, rest, rfl⟩
        exact .cons first (ih.mp rest)
      · rintro (_ | ⟨first, rest⟩)
        exact ⟨_, first, _, ih.mpr rest, rfl⟩

theorem mapM_congr {operation other : α → Except ε β} {members : List α}
    (same : ∀ member ∈ members, operation member = other member) :
    members.mapM operation = members.mapM other := by
  induction members with
  | nil => rfl
  | cons member members ih =>
      rw [List.forall_mem_cons] at same
      rw [List.mapM_cons, List.mapM_cons, same.1, ih same.2]

theorem mapM_map_result {γ : Type} (change : β → γ) (operation : α → Except ε β)
    (members : List α) :
    (members.mapM fun member => change <$> operation member) =
      (·.map change) <$> members.mapM operation := by
  induction members with
  | nil => rfl
  | cons member members ih =>
      simp only [List.mapM_cons, ih]
      cases operation member <;> cases members.mapM operation <;> rfl

theorem foldlM_congr {step other : β → α → Except ε β} {members : List α}
    (same : ∀ member ∈ members, ∀ state, step state member = other state member) {start : β} :
    members.foldlM step start = members.foldlM other start := by
  induction members generalizing start with
  | nil => rfl
  | cons member members ih =>
      rw [List.forall_mem_cons] at same
      rw [List.foldlM_cons, List.foldlM_cons, same.1]
      exact bind_congr fun state => ih same.2

theorem exists_of_mapM_eq_ok {operation : α → Except ε β} {members : List α} {values : List β}
    (mapped : members.mapM operation = .ok values) :
    ∀ member ∈ members, ∃ value ∈ values, operation member = .ok value := by
  rw [mapM_eq_ok] at mapped
  induction mapped with
  | nil => simp
  | cons first rest ih =>
      refine List.forall_mem_cons.mpr ⟨⟨_, List.mem_cons_self, first⟩, ?_⟩
      intro member memberMem
      obtain ⟨value, valueMem, operated⟩ := ih member memberMem
      exact ⟨value, List.mem_cons_of_mem _ valueMem, operated⟩

/-- The values are those that the operation gives for some member. -/
theorem mem_iff_of_mapM_eq_ok {operation : α → Except ε β} {members : List α}
    {values : List β} (mapped : members.mapM operation = .ok values) {value : β} :
    value ∈ values ↔ ∃ member ∈ members, operation member = .ok value := by
  rw [mapM_eq_ok] at mapped
  induction mapped with
  | nil => simp
  | cons first rest ih => simp [ih, first, eq_comm]

theorem exists_mapM_eq_ok_iff {operation : α → Except ε β} {members : List α} :
    (∃ values, members.mapM operation = .ok values) ↔
      ∀ member ∈ members, ∃ value, operation member = .ok value := by
  constructor
  · rintro ⟨values, mapped⟩ member memberMem
    obtain ⟨value, -, operated⟩ := exists_of_mapM_eq_ok mapped member memberMem
    exact ⟨value, operated⟩
  · intro each
    induction members with
    | nil => exact ⟨[], rfl⟩
    | cons member members ih =>
        rw [List.forall_mem_cons] at each
        obtain ⟨value, first⟩ := each.1
        obtain ⟨values, rest⟩ := ih each.2
        exact ⟨value :: values, by simp [List.mapM_cons, first, rest]⟩

theorem map_eq_of_mapM_eq_ok {γ : Type} {operation : α → Except ε β} {members : List α}
    {values : List β} (mapped : members.mapM operation = .ok values) {before : α → γ}
    {after : β → γ}
    (keeps : ∀ member value, operation member = .ok value → after value = before member) :
    values.map after = members.map before := by
  rw [mapM_eq_ok] at mapped
  induction mapped with
  | nil => rfl
  | cons first rest ih => rw [List.map_cons, List.map_cons, keeps _ _ first, ih]

/-- Computations that fail only with failures of some kind. -/
def FailsOnly (kind : ε → Prop) (computation : Except ε α) : Prop :=
  ∀ failure, computation = .error failure → kind failure

namespace FailsOnly

variable {kind : ε → Prop}

theorem ok (value : α) : FailsOnly kind (.ok value) := by
  rintro failure ⟨⟩

theorem bind {first : Except ε α} {next : α → Except ε β} (here : FailsOnly kind first)
    (there : ∀ value, first = .ok value → FailsOnly kind (next value)) :
    FailsOnly kind (first >>= next) := by
  cases first with
  | error found =>
      rintro failure ⟨⟩
      exact here found rfl
  | ok value => exact there value rfl

theorem map {computation : Except ε α} (only : FailsOnly kind computation) (view : α → β) :
    FailsOnly kind (view <$> computation) :=
  fun failure failed => only failure (map_eq_error.mp failed)

theorem mapError {computation : Except ε α} (only : FailsOnly kind computation) {view : ε → δ}
    {other : δ → Prop} (turns : ∀ failure, kind failure → other (view failure)) :
    FailsOnly other (computation.mapError view) := by
  cases computation with
  | ok value => exact ok value
  | error found =>
      rintro failure ⟨⟩
      exact turns found (only found rfl)

theorem foldlM {step : β → α → Except ε β} {members : List α}
    (each : ∀ member ∈ members, ∀ state, FailsOnly kind (step state member)) (start : β) :
    FailsOnly kind (members.foldlM step start) := by
  induction members generalizing start with
  | nil => exact ok start
  | cons member members ih =>
      rw [List.forall_mem_cons] at each
      rw [List.foldlM_cons]
      exact (each.1 start).bind fun state _ => ih each.2 state

theorem mapM {operation : α → Except ε β} {members : List α}
    (each : ∀ member ∈ members, FailsOnly kind (operation member)) :
    FailsOnly kind (members.mapM operation) := by
  induction members with
  | nil => exact ok []
  | cons member members ih =>
      rw [List.forall_mem_cons] at each
      rw [List.mapM_cons]
      exact each.1.bind fun value _ => (ih each.2).bind fun values _ => ok (value :: values)

end FailsOnly

/-- Computations that fail alike or succeed with related values. -/
inductive Alike (related : α → β → Prop) : Except ε α → Except ε β → Prop where
  | ok {value : α} {other : β} : related value other → Alike related (.ok value) (.ok other)
  | error (failure : ε) : Alike related (.error failure) (.error failure)

theorem Alike.bind {γ ζ : Type} {related : α → β → Prop} {onward : γ → ζ → Prop}
    {first : Except ε α} {second : Except ε β} {next : α → Except ε γ} {other : β → Except ε ζ}
    (here : Alike related first second)
    (there : ∀ value image, related value image → Alike onward (next value) (other image)) :
    Alike onward (first >>= next) (second >>= other) := by
  cases here with
  | ok holds => exact there _ _ holds
  | error failure => exact .error failure

theorem Alike.eq_map {first : Except ε α} {second : Except ε β} {view : α → β}
    (alike : Alike (fun value other => other = view value) first second) :
    second = view <$> first := by
  cases alike with
  | ok same => exact congrArg Except.ok same
  | error failure => rfl

theorem Alike.map_eq {γ : Type} {related : α → β → Prop} {first : Except ε α}
    {second : Except ε β} (alike : Alike related first second) {view : α → γ} {other : β → γ}
    (same : ∀ value image, related value image → other image = view value) :
    other <$> second = view <$> first := by
  cases alike with
  | ok holds => exact congrArg Except.ok (same _ _ holds)
  | error failure => rfl

theorem alike_map (computation : Except ε α) {view : α → β} {related : α → β → Prop}
    (holds : ∀ value, computation = .ok value → related value (view value)) :
    Alike related computation (view <$> computation) := by
  cases computation with
  | ok value => exact .ok (holds value rfl)
  | error failure => exact .error failure

namespace Logged

private theorem id_map (computation : Logged ω ε α) : id <$> computation = computation := by
  obtain ⟨events, result⟩ := computation
  cases result <;> simp [Functor.map, andThen]

private theorem andThen_assoc {γ : Type} (first : Logged ω ε α) (second : α → Logged ω ε β)
    (third : β → Logged ω ε γ) :
    (first >>= second) >>= third = first >>= fun value => second value >>= third := by
  obtain ⟨events, result⟩ := first
  cases result with
  | error failure => rfl
  | ok value =>
      simp only [bind, andThen]
      cases (second value).result <;> simp

instance : LawfulMonad (Logged ω ε) :=
  .mk' _ id_map (fun _ _ => rfl) andThen_assoc

@[simp]
theorem result_emit (event : ω) : (emit event : Logged ω ε Unit).result = .ok () :=
  rfl

@[simp]
theorem result_ofExcept (result : Except ε α) :
    (ofExcept result : Logged ω ε α).result = result :=
  rfl

@[simp]
theorem result_mapError (view : ε → δ) (computation : Logged ω ε α) :
    (computation.mapError view).result = computation.result.mapError view :=
  rfl

theorem result_foldlM (step : β → α → Logged ω ε β) (members : List α) (start : β) :
    (members.foldlM step start).result =
      members.foldlM (fun state member => (step state member).result) start := by
  induction members generalizing start with
  | nil => rfl
  | cons member members ih => simp only [List.foldlM_cons, result_bind, ih]

theorem result_mapM (operation : α → Logged ω ε β) (members : List α) :
    (members.mapM operation).result =
      members.mapM fun member => (operation member).result := by
  induction members with
  | nil => rfl
  | cons member members ih => simp [List.mapM_cons, ih, pure, Except.pure]

end Logged
end ReactiveReach
