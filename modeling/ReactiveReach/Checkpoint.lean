import ReactiveReach.Instant.Text
import ReactiveReach.State

/-!
# Checkpoints

A checkpoint is the values of all states at the end of a run, from which a later run can go on.
It carries the version of the format it is stored in, and only one version can be read back.
-/

namespace ReactiveReach

/-- The values of a run, set aside for a later one. -/
structure Checkpoint (V : Type) where
  version : UInt32
  id : String
  createdAt : Instant
  /-- The name of the machine whose states the values belong to. -/
  machine : String
  /-- How many passes the run made that was set aside. -/
  iterations : UInt64
  semantics : StateMap V
  deriving BEq

inductive CheckpointError where
  | unwritable (reason : String)
  | unreadable (reason : String)
  | unsupportedVersion (found supported : UInt32)
  deriving DecidableEq

namespace CheckpointError

def message : CheckpointError → String
  | unwritable reason => "cannot encode semantics snapshot: " ++ reason
  | unreadable reason => "cannot decode semantics snapshot: " ++ reason
  | unsupportedVersion found supported =>
    "semantics snapshot has format version " ++ toString found.toNat ++ ", expected " ++
      toString supported.toNat

end CheckpointError

namespace Checkpoint

variable {V : Type}

/-- The version of the format that is written and can be read. -/
def currentVersion : UInt32 := 1

def create (id : String) (createdAt : Instant) (machine : String) (iterations : UInt64)
    (semantics : StateMap V) : Checkpoint V :=
  ⟨currentVersion, id, createdAt, machine, iterations, semantics⟩

/-- Refuses a checkpoint of another version than the current one. -/
def checkVersion (checkpoint : Checkpoint V) : Except CheckpointError (Checkpoint V) :=
  if checkpoint.version = currentVersion then .ok checkpoint
  else .error (.unsupportedVersion checkpoint.version currentVersion)

theorem checkVersion_eq_ok_iff {found checkpoint : Checkpoint V} :
    found.checkVersion = .ok checkpoint ↔ found = checkpoint ∧ found.version = 1 := by
  by_cases current : found.version = 1 <;> simp [checkVersion, currentVersion, current]

end Checkpoint
end ReactiveReach
