import TableMotion.Tree
import TableMotion.Binary64

/-!
# Messages

What reaches a table: updates of its state, ticks of its clock, and kinds that never touch the
state.
-/

namespace TableMotion

/-- A new state, or the part of it that changed. -/
structure Update where
  /-- The place of the update in its stream, if it names one. -/
  version : Option Int
  payload : Tree
  /-- Whether the payload is merged into the state instead of replacing it. -/
  merges : Bool
deriving DecidableEq

/-- A step of the clock: to `time`, from `former`. The speed is a hint and moves nothing. -/
structure Tick where
  time : Binary64
  former : Binary64
  speed : Option Binary64
deriving DecidableEq

/-- A message to a table. -/
inductive Message where
  | gameState (update : Update)
  | tournament (update : Update)
  | chat (payload : Tree)
  | notification (payload : Tree)
  | tick (tick : Tick)
  | unrecognized (kind : String)
deriving DecidableEq

namespace Message

/-- The name of the kind of a message. -/
def kind : Message → String
  | .gameState _ => "UPDATE_GAMESTATE"
  | .tournament _ => "UPDATE_TOURNAMENT_STATE"
  | .chat _ => "UPDATE_CHAT"
  | .notification _ => "NOTIFICATION"
  | .tick _ => "TICK"
  | .unrecognized kind => kind

/-- The version that a message carries. -/
def version : Message → Option Int
  | .gameState update | .tournament update => update.version
  | _ => none

end Message

end TableMotion
