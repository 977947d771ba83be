import ReactiveReach.EventLine
import ReactiveReach.Machine.Draft
import ReactiveReach.Solve
import ReactiveReach.Stored.Checkpoint

/-!
# A boiler controller

A demonstration: which configurations of its heater can a small boiler controller reach in each
state? The heater is off, warming or hot. The controller lights it, waits until it is hot, and
resets it when it overheats. The report solves the controller, and then solves it again in two
parts with a checkpoint between them.
-/

namespace ReactiveReach.Boiler

/-- A set of heater configurations, one bit each. -/
structure Heater where
  flags : UInt16
  deriving DecidableEq

namespace Heater

def off : UInt16 := 1

def warming : UInt16 := 2

def hot : UInt16 := 4

/-- Moves the heater from any of the configurations `source` to `target`. -/
def shift (source target : UInt16) (heater : Heater) : Heater :=
  ⟨if heater.flags &&& source != 0 then target else 0⟩

def bits (heater : Heater) : String := String.ofList (Digits.inBase 2 3 heater.flags.toNat)

def describe (heater : Heater) : String := "Heater(" ++ toString heater.flags.toNat ++ ")"

instance : Storable Heater where
  valueToJson? heater := valueToJson? heater.flags
  valueOfJson? json := (valueOfJson? json).map Heater.mk
  valueToBytes? heater := valueToBytes? heater.flags
  readValue bytes := (readValue bytes).map fun (flags, rest) => (⟨flags⟩, rest)

end Heater

inductive HeaterError where
  | unknownTransition (step : StepId)
  | unknownEvent (event : EventId)
  deriving DecidableEq

namespace HeaterError

def message : HeaterError → String
  | unknownTransition step => "heater has no transition '" ++ step ++ "'"
  | unknownEvent event => "heater does not handle event '" ++ event ++ "'"

end HeaterError

def plant : Assembly Heater String HeaterError where
  id := "plant"
  bottom := ⟨0⟩
  top := ⟨Heater.off ||| Heater.warming ||| Heater.hot⟩
  meet a b := ⟨a.flags &&& b.flags⟩
  join a b := ⟨a.flags ||| b.flags⟩
  fire _ step heater :=
    if step = "ignite" then .ok (heater.shift Heater.off Heater.warming)
    else if step = "heat" then .ok (heater.shift Heater.warming Heater.hot)
    else .error (.unknownTransition step)
  deliver _ event heater :=
    if event = "reset" then
      .ok (heater.shift (Heater.off ||| Heater.warming ||| Heater.hot) Heater.off)
    else .error (.unknownEvent event)
  initial := .ok ⟨Heater.off⟩
  meaning predicate :=
    .ok ⟨if predicate = "overheated" then Heater.hot
      else Heater.off ||| Heater.warming ||| Heater.hot⟩

/-- A heater that is off can be lit, one that is warming can get warm. -/
def heaterZones (_ : State) (heater : Heater) : Except HeaterError (List (ExitZone String)) :=
  .ok <|
    (if heater.flags &&& Heater.off != 0 then [⟨"lit", "heater", "ignite"⟩] else []) ++
      (if heater.flags &&& Heater.warming != 0 then [⟨"warm", "heater", "heat"⟩] else [])

/-- The steps that describe the controller. -/
def controllerSteps : List (MachineStep Heater String HeaterError) :=
  [.name "boiler", .assembly plant, .seed "init", .ordinary "idle", .ordinary "warming",
    .ordinary "heating",
    .draftTransition [.from "init", .to "idle"],
    .draftTransition [.from "idle", .to "warming", .reactive, .when "lit"],
    .draftTransition [.from "warming", .to "heating", .reactive, .when "warm"],
    .draftTransition
      [.from "heating", .to "idle", .when "overheated", .action ⟨"heater", "reset"⟩],
    .exits heaterZones]

/-- A line of the report, or something else that shows while it is made. -/
inductive Line where
  | text (text : String)
  | event (event : Event Heater)
  /-- A checkpoint was taken after some passes, with a text of some bytes. -/
  | snapshot (passes bytes : Nat)

inductive Failure where
  | draft (failure : DraftFailure)
  | config (error : ConfigError)
  | solve (error : SolveError HeaterError)
  | checkpoint (error : CheckpointError)
  /-- The resumed run ended with other values than the direct one. -/
  | mismatch

namespace Failure

def message : Failure → String
  | draft failure => failure.error.message
  | config error => error.message
  | solve error => error.message HeaterError.message
  | checkpoint error => error.message
  | mismatch => "the resumed solve differs from the direct solve"

end Failure

def say (text : String) : Logged Line Failure Unit := .emit (.text text)

/-- The part of the report that a run makes: its events. -/
def watch {α : Type} (run : Logged (Event Heater) (SolveError HeaterError) α) :
    Logged Line Failure α :=
  ⟨run.events.map .event, run.result.mapError .solve⟩

def valueLine (state : StateId) (heater : Heater) : String :=
  "  " ++ state ++ " " ++ heater.bits

/-- The whole report, with an id and a time for the checkpoint in it. -/
def report (id : String) (createdAt : Instant) : Logged Line Failure Unit := do
  say "=== Boiler Controller Example ==="
  say ""
  let machine ← .ofExcept ((Machine.ofSteps controllerSteps).mapError .draft)
  let solver ← .ofExcept ((Solver.ofConfig .standard).mapError .config)
  let solution ← watch (solver.solve machine)
  say ("Converged: " ++ if solution.isConverged then "true" else "false")
  say ("Passes: " ++ toString solution.iterations)
  say ""
  solution.semantics.toList.forM fun (state, heater) => say (valueLine state heater)
  say ""
  say "=== Checkpoint and Resume ==="
  say ""
  let short ←
    .ofExcept ((Solver.ofConfig (SolverConfig.standard.withMaxIterations 2)).mapError .config)
  let part ← watch (short.solve machine)
  let stored ← .ofExcept
    ((part.checkpoint id createdAt "boiler").toText.mapError .checkpoint)
  .emit (.snapshot part.iterations stored.utf8ByteSize)
  let checkpoint ← .ofExcept ((Checkpoint.ofText stored).mapError .checkpoint)
  let resumed ← watch (solver.resume machine checkpoint)
  say ("Resumed in " ++ toString resumed.iterations ++ " passes")
  say ("heating reachable with: " ++ ((resumed.value? "heating").getD ⟨0⟩).bits)
  unless resumed.semantics = solution.semantics do
    .ofExcept (.error .mismatch)
  say ""
  say "Resumed solve matches the direct solve."

/-- The text of a line, unless it is an event below the least level shown. -/
def Line.shown? (time : String) (least : Level) : Line → Option String
  | text content => some content
  | event happened =>
    if least.rank ≤ happened.level.rank then some (happened.line time Heater.describe) else none
  | snapshot passes bytes =>
    some ("Checkpoint after " ++ toString passes ++ " passes (" ++ toString bytes ++
      " bytes of JSON)")

end ReactiveReach.Boiler
