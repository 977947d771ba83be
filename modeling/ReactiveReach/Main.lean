import Std.Time
import ReactiveReach.Boiler
import ReactiveReach.Uuid

/-!
# The boiler demonstration as a program

Prints the report on the boiler controller. The first argument, if there is one, is the least level
of the events that show between the lines; without it only errors do.
-/

namespace ReactiveReach.Demonstration

def presentInstant : IO (Option Instant) := do
  let now := Std.Time.PlainDateTime.ofWallTime ((← Std.Time.Timestamp.now).toWallTime .zero)
  return do
    let date ← Date.ofParts? now.date.year now.date.month.val.toNat now.date.day.val.toNat
    let time ← TimeOfDay.ofParts? now.time.hour.val.toNat now.time.minute.val.toNat
      now.time.second.val.toNat now.time.nanosecond.val.toNat
    return ⟨date, time⟩

/-- The level that an argument names. -/
def levelOfArgument (argument : String) : Option Level :=
  [Level.trace, .debug, .info, .warn, .error].find? fun level =>
    level.label.toLower = argument.toLower

end ReactiveReach.Demonstration

open ReactiveReach Demonstration

def main (arguments : List String) : IO UInt32 := do
  let least := (arguments.head?.bind levelOfArgument).getD .error
  let some instant ← presentInstant | do IO.eprintln "the clock shows no time"; return 1
  let bits ← IO.rand 0 (1 <<< 128 - 1)
  let demonstration := Boiler.report (Uuid.ofBits bits) instant
  for line in demonstration.events do
    if let some text := line.shown? instant.text least then IO.println text
  match demonstration.result with
  | .ok () => return 0
  | .error failure => do IO.eprintln failure.message; return 1
