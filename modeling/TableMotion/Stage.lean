import TableMotion.Engine
import TableMotion.Table

/-!
# Stages

A stage runs a table frame by frame on an engine. Messages wait in a channel until the next frame,
which takes them all, draws the table and publishes what was drawn. The rules are held beside the
table; a frame hands them over if they were changed since the last one. Rules that were put there
since the last frame are not handed over, since the table was started with its own.
-/

namespace TableMotion

/-- A table with what waits for its next frame and what its last frame showed. -/
structure Stage (engine : Engine := .plain) where
  table : Table
  /-- The rules held beside the table. -/
  rules : MotionRules
  /-- What became of these rules since the last frame. -/
  watch : engine.Watch
  /-- The messages sent since the last frame. -/
  inbox : engine.Channel
  published : Frame
  tally : Tally

namespace Stage

variable {engine : Engine}

/-- A stage before its first frame. -/
def start (rules : MotionRules) : Stage engine where
  table := Table.start rules
  rules
  watch := engine.inserted
  inbox := engine.quiet
  published := Frame.empty 0
  tally := {}

/-- Sends a message to the next frame. -/
def send (s : Stage engine) (m : Message) : Stage engine :=
  { s with inbox := engine.send s.inbox m }

/-- Replaces the rules held beside the table. -/
def replaceRules (s : Stage engine) (rules : MotionRules) : Stage engine :=
  { s with rules, watch := engine.mutated s.watch }

/-! ## The systems of a frame -/

/-- Hands replaced rules to the table. -/
def syncRules (s : Stage engine) : Stage engine :=
  { s with
    table := if engine.isChanged s.watch && !engine.isAdded s.watch then s.table.setRules s.rules
      else s.table
    watch := engine.ran s.watch }

/-- Gives the waiting messages to the table, unless one ends the program. -/
def takeInbox (s : Stage engine) : Except TickError (Stage engine) := do
  let (messages, inbox) := engine.read s.inbox
  let table ← messages.foldlM (fun t m => (t.deliver m).map (·.2.2)) s.table
  return { s with table, inbox }

/-- Draws the table and publishes the frame. -/
def publish (s : Stage engine) : Stage engine :=
  let (published, table) := s.table.render
  { s with table, published }

/-- Publishes the counters of the table. -/
def publishTally (s : Stage engine) : Stage engine := { s with tally := s.table.tally }

/-- Runs one frame, unless a message ends the program. -/
def runFrame (s : Stage engine) : Except TickError (Stage engine) :=
  engine.runChained [pure ∘ syncRules, takeInbox, pure ∘ publish, pure ∘ publishTally] s

end Stage

end TableMotion
