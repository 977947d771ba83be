/-!
# Computations that keep a log

A logged computation emits events in order and ends in a result or a failure. A failure keeps what
was emitted before it. `Logged.iterate` repeats a step, and its equations say that it is nothing
but the step followed by the remaining repetitions.
-/

namespace ReactiveReach

/-- What a computation emitted, in order, and how it ended. -/
structure Logged (ω ε α : Type) where
  events : List ω
  result : Except ε α

namespace Logged

variable {ω ε δ α β : Type}

/-- One computation after another; nothing follows a failure. -/
def andThen (first : Logged ω ε α) (next : α → Logged ω ε β) : Logged ω ε β :=
  match first.result with
  | .ok value => ⟨first.events ++ (next value).events, (next value).result⟩
  | .error failure => ⟨first.events, .error failure⟩

instance : Monad (Logged ω ε) where
  pure value := ⟨[], .ok value⟩
  bind := andThen

def emit (event : ω) : Logged ω ε Unit := ⟨[event], .ok ()⟩

/-- A computation that emits nothing. -/
def ofExcept (result : Except ε α) : Logged ω ε α := ⟨[], result⟩

/-- The same computation with its failure seen as another kind of failure. -/
def mapError (view : ε → δ) (computation : Logged ω ε α) : Logged ω δ α :=
  ⟨computation.events, computation.result.mapError view⟩

@[simp] theorem events_pure (value : α) : (pure value : Logged ω ε α).events = [] := rfl

@[simp] theorem result_pure (value : α) : (pure value : Logged ω ε α).result = .ok value := rfl

/-- Results ignore the log. -/
@[simp] theorem result_bind (first : Logged ω ε α) (next : α → Logged ω ε β) :
    (first >>= next).result = first.result >>= fun value => (next value).result := by
  show (first.andThen next).result = _
  unfold andThen
  cases first.result <;> rfl

theorem events_bind_ok {first : Logged ω ε α} {value : α} (h : first.result = .ok value)
    (next : α → Logged ω ε β) :
    (first >>= next).events = first.events ++ (next value).events := by
  show (first.andThen next).events = _
  simp only [andThen, h]

theorem events_bind_error {first : Logged ω ε α} {failure : ε} (h : first.result = .error failure)
    (next : α → Logged ω ε β) : (first >>= next).events = first.events := by
  show (first.andThen next).events = _
  simp only [andThen, h]

/-- Repeats a step until `done` or until `limit` repetitions, after `emitted` events, the newest
of which comes first. -/
def iterateAfter (step : α → Logged ω ε α) (done : α → Bool) (emitted : List ω) :
    Nat → α → Logged ω ε α
  | 0, state => ⟨emitted.reverse, .ok state⟩
  | limit + 1, state =>
    if done state then ⟨emitted.reverse, .ok state⟩
    else
      let round := step state
      match round.result with
      | .ok next => iterateAfter step done (round.events.reverseAux emitted) limit next
      | .error failure => ⟨(round.events.reverseAux emitted).reverse, .error failure⟩

/-- Repeats a step until `done`, but at most `limit` times. -/
def iterate (step : α → Logged ω ε α) (done : α → Bool) (limit : Nat) (state : α) :
    Logged ω ε α :=
  iterateAfter step done [] limit state

private theorem iterateAfter_eq (step : α → Logged ω ε α) (done : α → Bool) (emitted : List ω)
    (limit : Nat) (state : α) :
    iterateAfter step done emitted limit state =
      ⟨emitted.reverse ++ (iterate step done limit state).events,
        (iterate step done limit state).result⟩ := by
  induction limit generalizing emitted state with
  | zero => simp [iterate, iterateAfter]
  | succ limit ih =>
    simp only [iterate, iterateAfter]
    split
    · simp
    · split
      · rename_i next _
        rw [ih, ih ((step state).events.reverseAux [])]
        simp [List.reverseAux_eq]
      · simp [List.reverseAux_eq]

@[simp] theorem iterate_zero (step : α → Logged ω ε α) (done : α → Bool) (state : α) :
    iterate step done 0 state = pure state := rfl

theorem iterate_succ (step : α → Logged ω ε α) (done : α → Bool) (limit : Nat) (state : α) :
    iterate step done (limit + 1) state =
      if done state then pure state else step state >>= iterate step done limit := by
  show iterateAfter step done [] (limit + 1) state = _
  simp only [iterateAfter]
  split
  · rfl
  · show _ = (step state).andThen (iterate step done limit)
    unfold andThen
    split <;> rename_i h <;> simp [iterateAfter_eq, List.reverseAux_eq]

end Logged
end ReactiveReach
