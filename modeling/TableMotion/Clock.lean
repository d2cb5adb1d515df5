import TableMotion.Binary64.Text

/-!
# The clock

Time is driven from outside by ticks. A tick says from where to where it moves; one that moves
backward, or whose times are not finite, is rejected. A clock can be set to take a backward tick
for a defect of its driver, which ends the program.
-/

namespace TableMotion

/-- What a clock shows. The speed is a hint and moves nothing. -/
structure ClockState where
  time : Binary64
  former : Binary64
  speed : Binary64
deriving DecidableEq

/-- Why a tick is rejected. -/
inductive TickError where
  | backward (time former : Binary64)
  | notFinite (time former : Binary64)
deriving DecidableEq

namespace TickError

def message : TickError → String
  | .backward time former =>
    "clock regression: tick to " ++ time.plainText ++ " from " ++ former.plainText
  | .notFinite time former =>
    "tick carries a non-finite time (" ++ time.plainText ++ ", " ++ former.plainText ++ ")"

def isBackward : TickError → Bool
  | .backward .. => true
  | .notFinite .. => false

end TickError

/-- A clock. -/
structure Clock where
  state : ClockState
  /-- Whether a tick backward ends the program. -/
  fatal : Bool
deriving DecidableEq

namespace Clock

/-- A clock at time zero. -/
def start (fatal : Bool) : Clock := ⟨⟨0, 0, 1⟩, fatal⟩

def now (c : Clock) : Binary64 := c.state.time

/-- Why a tick is rejected, if it is. -/
def refusal? (time former : Binary64) : Option TickError :=
  if !time.isFinite || !former.isFinite then some (.notFinite time former)
  else if time < former then some (.backward time former)
  else none

/-- Moves the clock. The speed stays where a tick names none. -/
def tick (c : Clock) (time former : Binary64) (speed : Option Binary64) :
    Except TickError ClockState × Clock :=
  match refusal? time former with
  | some e => (.error e, c)
  | none =>
    let state : ClockState := ⟨time, former, speed.getD c.state.speed⟩
    (.ok state, { c with state })

/-- Whether a rejected tick ends the program. -/
def isFatal (c : Clock) (e : TickError) : Bool := c.fatal && e.isBackward

/-- Jumps to a time, forward or backward. -/
def jump (c : Clock) (time : Binary64) : Clock :=
  { c with state := { c.state with time, former := c.state.time } }

/-- Back to time zero, with the same speed. -/
def reset (c : Clock) : Clock := { c with state := { c.state with time := 0, former := 0 } }

/-- Whether the last move crossed a time. -/
def passed (c : Clock) (threshold : Binary64) : Bool :=
  c.state.former < threshold && threshold ≤ c.state.time

end Clock

end TableMotion
