import ReactiveReach.Json.Reader
import ReactiveReach.Json.Printer

/-!
# Solver configurations

The only setting is the number of passes after which a run gives up. A solver is a configuration
that allows at least one pass.
-/

namespace ReactiveReach

inductive ConfigError where
  | invalid (reason : String)
  | unreadable (reason : String)
  deriving DecidableEq

namespace ConfigError

def message : ConfigError → String
  | invalid reason => "invalid solver configuration: " ++ reason
  | unreadable reason => "failed to parse solver configuration: " ++ reason

def noPasses : ConfigError := .invalid "max_iterations must be at least 1"

end ConfigError

/-- The settings of a solver. -/
structure SolverConfig where
  /-- The number of passes after which a run gives up. -/
  maxIterations : UInt64
  deriving DecidableEq

namespace SolverConfig

/-- A thousand passes. -/
def standard : SolverConfig := ⟨1000⟩

instance : Inhabited SolverConfig := ⟨standard⟩

def withMaxIterations (config : SolverConfig) (maxIterations : UInt64) : SolverConfig :=
  { config with maxIterations }

/-- Refuses a configuration that allows no pass. -/
def validate (config : SolverConfig) : Except ConfigError Unit :=
  if config.maxIterations = 0 then .error .noPasses else .ok ()

/-- A configuration is written as an object. It is read from an object or an array, and a setting
that is left out has its standard value. -/
instance : JsonForm SolverConfig where
  toJson config := .ofMembers [("max_iterations", .natural config.maxIterations.toNat)]
  ofJson? json := do
    let setting ← match json with
      | .array [] => some none
      | .array [setting] => some (some setting)
      | .array _ => none
      | json => do
        match Json.valuesOf "max_iterations" (← json.members?) with
        | [] => some none
        | [setting] => some (some setting)
        | _ => none
    match setting with
    | none => return standard
    | some setting => return ⟨.ofNat (← setting.natural? UInt64.size)⟩

def ofText (text : String) : Except ConfigError SolverConfig :=
  match Json.parse? text >>= ofJson? with
  | some config => do config.validate; return config
  | none => .error (.unreadable "not a JSON object of settings")

end SolverConfig

/-- A configuration that allows at least one pass. -/
structure Solver where
  config : SolverConfig
  allows_pass : config.maxIterations ≠ 0

namespace Solver

def ofConfig (config : SolverConfig) : Except ConfigError Solver :=
  if h : config.maxIterations = 0 then .error .noPasses else .ok ⟨config, h⟩

def standard : Solver := ⟨.standard, by decide⟩

instance : Inhabited Solver := ⟨standard⟩

/-- The number of passes after which a run gives up. -/
def cap (solver : Solver) : Nat := solver.config.maxIterations.toNat

end Solver
end ReactiveReach
