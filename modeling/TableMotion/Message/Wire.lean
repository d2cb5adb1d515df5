import TableMotion.Message
import TableMotion.Tree.Json
import TableMotion.Json.Shape

/-!
# The wire form of messages

A message is a JSON object with its kind under `type`. Updates share the object with their payload:
`version` and `partial` belong to the envelope, and every other member is a field of the payload. A
game state may also stand whole under `gamestate`, if nothing else is there.
-/

namespace TableMotion

/-- Why a JSON value is no message. -/
inductive WireError where
  | notObject
  | noKind
  | missing (field : String)
  | unsuitable (field expected : String) (found : Json)

def WireError.message : WireError → String
  | .notObject => "message is not a JSON object"
  | .noKind => "message has no string `type` field"
  | .missing field => "message is missing required field `" ++ field ++ "`"
  | .unsuitable field expected found =>
    "field `" ++ field ++ "` is invalid: expected " ++ expected ++ ", found " ++ found.compact

/-- Why a text is no message. -/
inductive MessageError where
  | json (fault : Json.Fault)
  | wire (error : WireError)

def MessageError.message : MessageError → String
  | .json fault => "failed to parse JSON: " ++ fault.message
  | .wire error => error.message

namespace Message

/-- The members of the envelope of an update. -/
def envelopeFields : List String := ["type", "version", "partial"]

/-- The member that can hold a whole game state. -/
def stateField : String := "gamestate"

/-! ## Reading -/

/-- The member under a key, with `null` for absent. -/
def member? (members : Dictionary Json) (key : String) : Option Json :=
  match Dictionary.find? members key with
  | some .null => none
  | found => found

/-- The version of an update. -/
def versionOf (members : Dictionary Json) : Except WireError (Option Int) :=
  match member? members "version" with
  | none => .ok none
  | some (.integer n) =>
    if -0x8000000000000000 ≤ n ∧ n < 0x8000000000000000 then .ok (some n)
    else .error (.unsuitable "version" "an integer" (.integer n))
  | some found => .error (.unsuitable "version" "an integer" found)

/-- Whether an update is merged into the state. -/
def mergesOf (members : Dictionary Json) : Except WireError Bool :=
  match member? members "partial" with
  | none => .ok false
  | some (.bool b) => .ok b
  | some found => .error (.unsuitable "partial" "a boolean" found)

/-- Every member outside the envelope, as a map. -/
def payloadFields (members : Dictionary Json) : Dictionary Tree :=
  Tree.ofMembers (members.filter fun m => !envelopeFields.contains m.1)

/-- The payload of a game state: a lone `gamestate` member is the state itself. -/
def statePayload (members : Dictionary Json) : Tree :=
  match payloadFields members with
  | [(key, state)] => if key = stateField then state else .map [(key, state)]
  | fields => .map fields

/-- An update with its payload. -/
def updateOf (members : Dictionary Json) (payload : Tree) : Except WireError Update := do
  let version ← versionOf members
  let merges ← mergesOf members
  return { version, payload, merges }

/-- The number under a key, if one is there. -/
def number? (members : Dictionary Json) (key : String) : Except WireError (Option Binary64) :=
  match member? members key with
  | none => .ok none
  | some (.integer n) => .ok (some (Binary64.ofInt n))
  | some (.real x) => .ok (some x.1)
  | some found => .error (.unsuitable key "a number" found)

/-- The number that must be under a key. -/
def number (members : Dictionary Json) (key : String) : Except WireError Binary64 := do
  match ← number? members key with
  | some x => return x
  | none => throw (.missing key)

/-- A tick of the clock. -/
def tickOf (members : Dictionary Json) : Except WireError Tick := do
  let time ← number members "warped_time"
  let former ← number members "former_time"
  let speed ← number? members "speed"
  return { time, former, speed }

/-- The message of a kind. -/
def ofMembers (kind : String) (members : Dictionary Json) : Except WireError Message :=
  if kind = "UPDATE_GAMESTATE" then (updateOf members (statePayload members)).map .gameState
  else if kind = "UPDATE_TOURNAMENT_STATE" then
    (updateOf members (.map (payloadFields members))).map .tournament
  else if kind = "UPDATE_CHAT" then .ok (.chat (.map (payloadFields members)))
  else if kind = "NOTIFICATION" then .ok (.notification (.map (payloadFields members)))
  else if kind = "TICK" then (tickOf members).map .tick
  else .ok (.unrecognized kind)

/-- The message of a JSON value. -/
def ofJson : Json → Except WireError Message
  | .object members =>
    match Dictionary.find? members "type" with
    | some (.text kind) => ofMembers kind members
    | _ => .error .noKind
  | _ => .error .notObject

/-- The message of a text. -/
def ofText (text : String) : Except MessageError Message :=
  match Json.ofText text with
  | .error fault => .error (.json fault)
  | .ok value => (ofJson value).mapError .wire

/-! ## Writing -/

/-- Puts the members of a payload beside those of the envelope. What is no map goes whole under
`gamestate`. -/
def withPayload (envelope : Dictionary Json) (payload : Tree) : Dictionary Json :=
  match payload.toJson with
  | .object members => members.foldl (fun d m => Dictionary.insert m.1 m.2 d) envelope
  | whole => Dictionary.insert stateField whole envelope

/-- The members of an update. -/
def updateMembers (kind : String) (update : Update) : Dictionary Json :=
  let named : Dictionary Json := [("type", .text kind)]
  let versioned := match update.version with
    | some n => Dictionary.insert "version" (.integer n) named
    | none => named
  let envelope := if update.merges then Dictionary.insert "partial" (.bool true) versioned
    else versioned
  withPayload envelope update.payload

/-- The members of a tick, without its kind. -/
def tickMembers (t : Tick) : List (String × Json) :=
  [("warped_time", Json.ofBinary64 t.time), ("former_time", Json.ofBinary64 t.former)] ++
    t.speed.toList.map fun speed => ("speed", Json.ofBinary64 speed)

/-- The JSON value of a message. -/
def toJson (m : Message) : Json :=
  let named : Dictionary Json := [("type", .text m.kind)]
  .object <| match m with
    | .gameState update | .tournament update => updateMembers m.kind update
    | .chat payload | .notification payload => withPayload named payload
    | .tick t => (tickMembers t).foldl (fun d e => Dictionary.insert e.1 e.2 d) named
    | .unrecognized _ => named

/-- The text of a message. -/
def text (m : Message) : String := m.toJson.compact

end Message

/-! ## Ticks by themselves -/

namespace Tick

/-- A tick that is being read. -/
structure Draft where
  time : Option Binary64
  former : Option Binary64
  speed : Option (Option Binary64)

/-- The fields of a tick. -/
def fields : List (Json.Reader.FieldReader Draft) := [
  { name := "warped_time", isSet := fun d => d.time.isSome, inObject := true, inArray := true
    read := fun _ d => return { d with time := some (← Json.Reader.binary64) } },
  { name := "former_time", isSet := fun d => d.former.isSome, inObject := true, inArray := true
    read := fun _ d => return { d with former := some (← Json.Reader.binary64) } },
  { name := "speed", isSet := fun d => d.speed.isSome, inObject := false, inArray := false
    read := fun _ d =>
      return { d with speed := some (← Json.Reader.optional Json.Reader.binary64) } }]

/-- Takes a tick. -/
def reader : Json.Reader Tick := do
  let d ← Json.Reader.record Json.nestingLimit "struct TickEvent" fields ⟨none, none, none⟩
  return ⟨d.time.getD 0, d.former.getD 0, d.speed.getD none⟩

/-- The tick of a text. -/
def ofText (text : String) : Except Json.Fault Tick := Json.readText reader text

/-- The JSON value of a tick. -/
def toJson (tick : Tick) : Json := .object (Message.tickMembers tick)

end Tick

end TableMotion
