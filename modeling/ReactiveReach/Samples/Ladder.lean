import ReactiveReach.Checkpoint
import ReactiveReach.Config
import ReactiveReach.Instant
import ReactiveReach.Machine.Draft
import ReactiveReach.Samples.BitAssembly

/-!
# A ladder

A small machine over flags with both kinds of transition and a cycle. A lift carries
what reaches the first rung upwards, adding one flag per rung, and the last rung
leads back to the first.
-/

namespace ReactiveReach.Samples

/-- The sub-machine that moves from rung to rung. -/
def lift : BitTables where
  initial := 0b0001
  transitions := [(("lift", "up1"), ⟨0b0010, 0⟩), (("lift", "up2"), ⟨0b0100, 0⟩)]
  events := []

/-- The lift can move on from the first rung, and from the second once it got there. -/
def liftZones : State → UInt32 → Except BitError (List (ExitZone UInt32)) := fun _ flags =>
  .ok <| (if flags &&& 0b0001 != 0 then [⟨1, "lift", "up1"⟩] else []) ++
    (if flags &&& 0b0010 != 0 then [⟨2, "lift", "up2"⟩] else [])

def climb : Transition UInt32 := (Transition.reactive "A" "B").guarded (.holds 1)

/-- A lift with a bell, which shows that it has left the first rung. -/
def ringingLift : BitTables := { lift with events := [(("lift", "bell"), ⟨0b1000, 0b0001⟩)] }

def ringingClimb : Transition UInt32 := climb.andThen ⟨"lift", "bell"⟩

/-- Two ways to climb, and one that no lift knows and that no climb asks for. -/
def waysUp : List (ExitZone UInt32) :=
  [⟨2, "lift", "down"⟩, ⟨1, "lift", "up2"⟩, ⟨1, "lift", "up1"⟩]

/-- A seed and three rungs. -/
def ladder : Machine UInt32 UInt32 BitError where
  name := "ladder"
  assembly := lift.assembly
  states := [.seed "Seed", .ordinary "A", .ordinary "B", .ordinary "C"]
  transitions := [
    .triggered "Seed" "A",
    climb,
    (Transition.reactive "B" "C").guarded (.holds 2),
    .triggered "C" "A"]
  exits := liftZones

/-- Steps that describe the ladder, some of which later ones overrule. -/
def ladderSteps : List (MachineStep UInt32 UInt32 BitError) :=
  [.name "stairs", .seed "Seed", .exits (zoneWhen 0b0001 ⟨1, "lift", "up1"⟩),
    .draftTransition [.to "A", .from "Seed"], .assembly (BitTables.assembly ⟨0, [], []⟩),
    .ordinary "A", .state (.ordinary "B"), .name "ladder",
    .draftTransition
      [.when 7, .triggerable, .from "B", .to "B", .reactive, .from "A", .guard (.holds 1)],
    .transitions [(Transition.reactive "B" "C").guarded (.holds 2), .triggered "C" "A"],
    .ordinary "C", .exits liftZones, .assembly lift.assembly]

/-- A ladder whose lift does not know the way to the third rung. -/
def brokenLadder : Machine UInt32 UInt32 BitError :=
  { ladder with
    assembly := BitTables.assembly { lift with transitions := lift.transitions.take 1 } }

/-- A ladder whose lift can always move on from the first two rungs. -/
def steadyLadder : Machine UInt32 UInt32 BitError :=
  { ladder with exits := fun _ _ => .ok [⟨1, "lift", "up1"⟩, ⟨2, "lift", "up2"⟩] }

/-- A ladder whose rungs have one way on while they have the first flag. -/
def plainLadder (step : StepId) : Machine UInt32 UInt32 BitError :=
  { ladder with exits := zoneWhen 0b0001 ⟨1, "lift", step⟩ }

/-- A ladder with a door to the last rung, where more is there from the start. -/
def widerLadder : Machine UInt32 UInt32 BitError :=
  { ladder with
    assembly := BitTables.assembly { lift with initial := 0b1001 }
    transitions := .triggered "Seed" "C" :: ladder.transitions.reverse
    exits := fun state flags => do
      return (← liftZones state flags) ++ (← zoneWhen 0b1000 ⟨2, "lift", "up1"⟩ state flags) }

/-- A ladder with two landings off the second rung, which lead to each other. -/
def ladderWithLandings : Machine UInt32 UInt32 BitError :=
  { ladder with
    states := .ordinary "D" :: ladder.states ++ [.ordinary "E"]
    transitions := .triggered "D" "E" :: ladder.transitions ++
      [.triggered "B" "D", .triggered "E" "D", .triggered "E" "Seed"] }

/-- A ladder with two rungs that nobody can get to, although they lead to each other, to
themselves and to the ladder. The lift can always move on from the rungs. -/
def ladderWithIsland : Machine UInt32 UInt32 BitError :=
  { steadyLadder with
    states := .ordinary "D" :: ladder.states ++ [.ordinary "E"]
    transitions := .reactive "D" "D" :: ladder.transitions ++
      [.triggered "D" "E", .reactive "E" "D", .triggered "E" "A", .triggered "D" "Seed"] }

/-- A ladder without the way from the last rung to the first. -/
def oneWayLadder : Machine UInt32 UInt32 BitError :=
  { ladder with transitions := ladder.transitions.take 3 }

/-- A one-way ladder with another rung at its side, from which nobody climbs. -/
def straightLadder : Machine UInt32 UInt32 BitError :=
  { ladder with
    states := .ordinary "D" :: ladder.states
    transitions := .triggered "D" "C" :: oneWayLadder.transitions ++
      [.triggered "Seed" "C", .triggered "C" "Seed"] }

/-- A ladder with ways back to the seed, one of which jams the lift. The seed is left
without a trigger, and its exit zones are not known. -/
def returningLadder : Machine UInt32 UInt32 BitError :=
  { ladder with
    transitions := (Transition.triggered "C" "Seed").andThen ⟨"lift", "jam"⟩ ::
      .reactive "Seed" "A" :: ladder.transitions.tail ++ [.reactive "Seed" "Seed"]
    exits := fun state flags =>
      if state.isSeed then .error (.unknownTransition "lift" "down") else liftZones state flags }

/-- A ladder over values that tell nothing apart, where every operation fails. -/
def jammedLadder : Machine Unit UInt32 String where
  name := "ladder"
  assembly := {
    id := "jammed"
    bottom := ()
    top := ()
    meet := fun _ _ => ()
    join := fun _ _ => ()
    fire := fun _ _ _ => .error "fire"
    deliver := fun _ _ _ => .error "deliver"
    initial := .error "initial"
    meaning := fun _ => .error "meaning" }
  states := ladder.states
  transitions := ladder.transitions
  exits := fun _ _ => .error "exits"

/-- A machine whose states are listed backwards, and its transitions backwards and again. -/
def backwards {V P E : Type} (machine : Machine V P E) : Machine V P E :=
  { machine with
    states := machine.states.reverse
    transitions := machine.transitions.reverse ++ machine.transitions }

def twoPasses : Solver := ⟨⟨2⟩, by decide⟩

def threePasses : Solver := ⟨⟨3⟩, by decide⟩

def earlyMorning : Instant :=
  ⟨⟨2024, 1, 2, by decide, by decide⟩, ⟨3, 4, 5, 0, by decide, by decide, by decide, by decide⟩⟩

/-- Values that the ladder has after two passes, except perhaps at the seed. -/
def halfway (id : String) (seed : UInt32) : Checkpoint UInt32 :=
  let values : List (StateId × UInt32) := [("A", 0b0001), ("B", 0b0011), ("C", 0)]
  .create id earlyMorning "ladder" 2 (Std.ExtTreeMap.insert (.ofList values) "Seed" seed)

/-- Values for the straight ladder, none of which are right. -/
def astray : Checkpoint UInt32 :=
  let values : List (StateId × UInt32) := [("Seed", 6), ("D", 8), ("A", 12), ("B", 0), ("C", 16)]
  .create "astray" earlyMorning "ladder" 9 (.ofList values)

end ReactiveReach.Samples
