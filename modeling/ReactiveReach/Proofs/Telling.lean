import ReactiveReach.Proofs.Results

/-!
# Computations that tell of each member of a list

A computation may work through a list, give each member a value and tell of it with
one event. `ToldInTurn` is what the log of such a computation looks like: one event per
member, in order, up to the first member that cannot be given a value. It does not
depend on how the work is nested, so it can be read off from the parts.
-/

namespace ReactiveReach

variable {ω ε δ α β γ : Type}

/-- Each member in turn is given a value and told of. The first that is given a failure
ends it, and is not told of. -/
inductive ToldInTurn (give : α → Except ε β) (tell : α → β → ω) :
    List α → List ω → Option ε → Prop where
  | nil : ToldInTurn give tell [] [] none
  | cons {member : α} {value : β} {members : List α} {events : List ω} {stop : Option ε} :
      give member = .ok value → ToldInTurn give tell members events stop →
      ToldInTurn give tell (member :: members) (tell member value :: events) stop
  | failed {member : α} {failure : ε} {members : List α} :
      give member = .error failure → ToldInTurn give tell (member :: members) [] (some failure)

namespace ToldInTurn

variable {give : α → Except ε β} {tell : α → β → ω} {members others : List α}
  {events more : List ω} {stop : Option ε} {failure : ε}

theorem append (whole : ToldInTurn give tell members events none)
    (rest : ToldInTurn give tell others more stop) :
    ToldInTurn give tell (members ++ others) (events ++ more) stop := by
  generalize ended : (none : Option ε) = first at whole
  induction whole with
  | nil => exact rest
  | cons given _ ih => exact .cons given (ih ended)
  | failed => cases ended

theorem append_failed (cut : ToldInTurn give tell members events (some failure))
    (others : List α) : ToldInTurn give tell (members ++ others) events (some failure) := by
  generalize ended : some failure = first at cut
  induction cut with
  | nil => cases ended
  | cons given _ ih => exact .cons given (ih ended)
  | failed given =>
      obtain rfl := Option.some.inj ended
      exact .failed given

theorem map_eq_replicate (whole : ToldInTurn give tell members events none) {view : ω → γ}
    {image : γ} (same : ∀ member value, view (tell member value) = image) :
    events.map view = List.replicate members.length image := by
  generalize ended : (none : Option ε) = first at whole
  induction whole with
  | nil => rfl
  | cons given _ ih =>
      rw [List.map_cons, List.length_cons, List.replicate_succ, same, ih ended]
  | failed => cases ended

end ToldInTurn

namespace Logged

theorem ofExcept_ok (value : α) : (ofExcept (.ok value) : Logged ω ε α) = pure value :=
  rfl

theorem bind_of_ok {first : Logged ω ε α} {value : α} (ended : first.result = .ok value)
    (next : α → Logged ω ε β) :
    (first >>= next) = ⟨first.events ++ (next value).events, (next value).result⟩ := by
  show first.andThen next = _
  simp only [andThen, ended]

theorem bind_of_error {first : Logged ω ε α} {failure : ε} (ended : first.result = .error failure)
    (next : α → Logged ω ε β) : (first >>= next) = ⟨first.events, .error failure⟩ := by
  show first.andThen next = _
  simp only [andThen, ended]

/-- The failure in which a computation ends, if it does. -/
def failure? (computation : Logged ω ε α) : Option ε :=
  match computation.result with
  | .ok _ => none
  | .error failure => some failure

theorem failure?_of_ok {computation : Logged ω ε α} {value : α}
    (ended : computation.result = .ok value) : computation.failure? = none := by
  rw [failure?, ended]

theorem failure?_of_error {computation : Logged ω ε α} {failure : ε}
    (ended : computation.result = .error failure) : computation.failure? = some failure := by
  rw [failure?, ended]

/-- The computation tells of the members in turn, and ends where that ends. -/
def Tells (give : α → Except ε β) (tell : α → β → ω) (members : List α)
    (computation : Logged ω ε γ) : Prop :=
  ToldInTurn give tell members computation.events computation.failure?

namespace Tells

variable {give : α → Except ε β} {tell : α → β → ω} {members others : List α}

theorem pure (value : γ) : (Pure.pure value : Logged ω ε γ).Tells give tell [] :=
  .nil

theorem bind {first : Logged ω ε γ} {next : γ → Logged ω ε δ}
    (here : first.Tells give tell members)
    (there : ∀ value, first.result = .ok value → (next value).Tells give tell others) :
    (first >>= next).Tells give tell (members ++ others) := by
  unfold Tells at here
  cases ended : first.result with
  | ok value =>
      rw [failure?_of_ok ended] at here
      rw [bind_of_ok ended]
      exact here.append (there value ended)
  | error failure =>
      rw [failure?_of_error ended] at here
      rw [bind_of_error ended]
      exact here.append_failed others

/-- What follows without an event and without a failure changes nothing. -/
theorem bind_silent {first : Logged ω ε γ} {next : γ → Logged ω ε δ}
    (here : first.Tells give tell members)
    (silent : ∀ value, first.result = .ok value → (next value).Tells give tell []) :
    (first >>= next).Tells give tell members := by
  have whole := here.bind silent
  rwa [List.append_nil] at whole

theorem single (member : α) (next : β → γ) :
    (do let value ← ofExcept (give member)
        emit (tell member value)
        return next value : Logged ω ε γ).Tells give tell [member] := by
  cases given : give member with
  | ok value => exact .cons given .nil
  | error failure => exact .failed given

theorem foldlM {step : γ → δ → Logged ω ε γ} {items : List δ} {part : δ → α}
    (each : ∀ item ∈ items, ∀ state, (step state item).Tells give tell [part item])
    (start : γ) : (items.foldlM step start).Tells give tell (items.map part) := by
  induction items generalizing start with
  | nil => exact pure start
  | cons item items ih =>
      rw [List.forall_mem_cons] at each
      rw [List.foldlM_cons]
      exact (each.1 start).bind fun state _ => ih each.2 state

theorem mapM {operation : δ → Logged ω ε γ} {items : List δ} {parts : δ → List α}
    (each : ∀ item ∈ items, (operation item).Tells give tell (parts item)) :
    (items.mapM operation).Tells give tell (items.flatMap parts) := by
  induction items with
  | nil => exact pure []
  | cons item items ih =>
      rw [List.forall_mem_cons] at each
      rw [List.mapM_cons, List.flatMap_cons]
      exact each.1.bind fun value _ =>
        (ih each.2).bind_silent fun values _ => pure (value :: values)

end Tells
end Logged
end ReactiveReach
