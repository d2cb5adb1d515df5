import TableMotion.Clock
import TableMotion.Frame
import TableMotion.GameState
import TableMotion.Message
import TableMotion.MotionRules
import TableMotion.Tally

/-!
# Tables

A table takes messages in the order of their delivery. An accepted update changes the state at once
and sets a transition under way for each change; ticks move the clock and prune what is long over.
What is drawn is the frame of the schedule at the time of the clock.
-/

namespace TableMotion

/-- What a table reports while it works. -/
inductive Event where
  | stateApplied (message : Nat) (version : Option Int) (initial : Bool) (changes : Nat)
  | staleDropped (message : Nat) (error : StaleUpdate)
  | ticked (state : ClockState)
  | clockRejected (error : TickError)
  | pruned (count remaining : Nat)
deriving DecidableEq

/-- What a message did. -/
inductive Outcome where
  | applied (version : Option Int) (changes : Nat)
  | stale (error : StaleUpdate)
  | ticked (state : ClockState)
  | clockRejected (error : TickError)
  | ignored
deriving DecidableEq

/-- A table. -/
structure Table where
  gameState : GameState
  schedule : Schedule
  clock : Clock
  rules : MotionRules
  tally : Tally
  /-- The number of the next message. -/
  nextMessage : Nat
deriving DecidableEq

namespace Table

/-- A table at time zero. Ticks backward end the program unless the rules say otherwise. -/
def start (rules : MotionRules) : Table where
  gameState := .empty
  schedule := .empty
  clock := Clock.start (rules.fatalRegressions.getD true)
  rules
  tally := {}
  nextMessage := 0

def now (t : Table) : Binary64 := t.clock.now

/-- Takes other rules. What is under way keeps its timing. -/
def setRules (t : Table) (rules : MotionRules) : Table := { t with rules }

/-- Brings the counters of the schedule into the tally. -/
def countSchedule (t : Table) : Table :=
  { t with tally := { t.tally with
      queueDepth := t.schedule.transitions.length
      interrupted := t.schedule.interrupted
      pruned := t.schedule.pruned } }

/-! ## Updates -/

/-- Sets the transitions of changes under way, at the time of the clock. -/
def insertAll (t : Table) (message : Nat) (cs : List Change) : Schedule :=
  cs.foldl (fun s c => s.insert c t.now (t.rules.timingOf c) (some message)) t.schedule

/-- Applies an update to the state and animates what it changed. The first update is a baseline. -/
def update (t : Table) (message : Nat) (version : Option Int) (patch : Patch) :
    Outcome × List Event × Table :=
  match t.gameState.apply version patch with
  | (.error e, gameState) =>
    (.stale e, [.staleDropped message e],
      { t with gameState, tally := { t.tally with staleDropped := t.tally.staleDropped + 1 } })
  | (.ok accepted, gameState) =>
    let changes := if accepted.initial then []
      else Tree.changes accepted.previous gameState.tree
    let schedule := if accepted.initial then
        t.schedule.startWith gameState.tree (some message)
      else t.insertAll message changes
    let tally := { t.tally with
      accepted := t.tally.accepted + 1
      enqueued := t.tally.enqueued + changes.length }
    (.applied accepted.version changes.length,
      [.stateApplied message accepted.version accepted.initial changes.length],
      countSchedule { t with gameState, schedule, tally })

/-! ## Ticks -/

/-- Prunes what was over before a time; gives how many transitions went. -/
def prune (t : Table) (time : Binary64) : Nat × List Event × Table :=
  let (count, schedule) := t.schedule.evict time
  let events := if count = 0 then [] else [Event.pruned count schedule.transitions.length]
  (count, events, countSchedule { t with schedule })

/-- Moves the clock, then prunes what has been over for longer than the grace. -/
def tick (t : Table) (step : Tick) : Except TickError ClockState × List Event × Table :=
  match t.clock.tick step.time step.former step.speed with
  | (.error e, _) =>
    (.error e, [.clockRejected e],
      { t with tally := { t.tally with clockRejections := t.tally.clockRejections + 1 } })
  | (.ok state, clock) =>
    let moved := { t with clock, tally := { t.tally with ticks := t.tally.ticks + 1 } }
    let (_, events, pruned) := moved.prune (state.time - t.rules.pruneGrace)
    (.ok state, .ticked state :: events, pruned)

/-! ## Messages -/

/-- The patch of an update of the game. -/
def patchOf (u : Update) : Patch := if u.merges then .merge u.payload else .replace u.payload

/-- Takes a message. A tick backward is rejected, whether or not it is fatal (`abort?`). -/
def receive (t : Table) (m : Message) : Outcome × List Event × Table :=
  let number := t.nextMessage
  let counted := { t with
    nextMessage := number + 1, tally := { t.tally with messages := t.tally.messages + 1 } }
  match m with
  | .gameState u => counted.update number u.version (patchOf u)
  | .tournament u => counted.update number u.version (.tournament u.payload)
  | .tick step =>
    match counted.tick step with
    | (.ok state, events, moved) => (.ticked state, events, moved)
    | (.error e, events, same) => (.clockRejected e, events, same)
  | .chat _ | .notification _ | .unrecognized _ =>
    (.ignored, [], { counted with
      tally := { counted.tally with ignored := counted.tally.ignored + 1 } })

/-- The tick error with which an outcome ends the program, if it does. -/
def abort? (t : Table) : Outcome → Option TickError
  | .clockRejected e => if t.clock.isFatal e then some e else none
  | _ => none

/-- Takes a message, unless it ends the program. -/
def deliver (t : Table) (m : Message) : Except TickError (Outcome × List Event × Table) :=
  let answer := t.receive m
  match t.abort? answer.1 with
  | some e => .error e
  | none => .ok answer

/-- Takes one more message of a run and gathers what is reported. -/
def advance (s : List Event × Table) (m : Message) : List Event × Table :=
  let (_, events, t) := s.2.receive m
  (s.1 ++ events, t)

/-- Takes messages in their order, none of which ends the program. -/
def receiveAll (t : Table) (ms : List Message) : List Event × Table := ms.foldl advance ([], t)

theorem receiveAll_snoc (t : Table) (ms : List Message) (m : Message) :
    t.receiveAll (ms ++ [m]) = advance (t.receiveAll ms) m := by
  simp [receiveAll]

/-! ## Drawing -/

/-- The frame at any time. Before the last prune it may lack transitions. -/
def frameAt (t : Table) (time : Binary64) : Frame := t.schedule.frameAt time

/-- The frame at the time of the clock. -/
def frame (t : Table) : Frame := t.frameAt t.now

/-- The node drawn at a path, or the whole tree. -/
def drawn? (t : Table) : Option Path → Option Tree
  | some p => t.schedule.valueAt p t.now
  | none => t.frame.root

/-- Draws a frame and counts it. -/
def render (t : Table) : Frame × Table :=
  let f := t.frame
  (f, { t with tally := { t.tally with
      frames := t.tally.frames + 1
      skippedPaths := t.tally.skippedPaths + f.skipped.length } })

/-- Forgets everything but the rules, the speed of the clock and what it takes for fatal. -/
def reset (t : Table) : Table :=
  { t with
    gameState := .empty, schedule := .empty, clock := t.clock.reset, tally := {}
    nextMessage := 0 }

end Table

end TableMotion
