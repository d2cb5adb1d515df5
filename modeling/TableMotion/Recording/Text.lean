import TableMotion.Recording.Package
import TableMotion.Text.Blank

/-!
# Recordings as text

A recording is written as one JSON document. It is also read from lines that hold a message each;
the numbers then count the messages from zero.
-/

namespace TableMotion

/-- Why a text or a file is no recording. -/
inductive RecordingError where
  /-- The document is not one of a recording. -/
  | json (fault : Json.Fault)
  /-- A line, counted from one, holds no message. -/
  | line (number : Nat) (source : MessageError)
  /-- The file cannot be read. -/
  | unreadable

def RecordingError.message : RecordingError → String
  | .json fault => "failed to parse JSON: " ++ fault.message
  | .line number source => "session line " ++ Nat.repr number ++ ": " ++ source.message
  | .unreadable => "the file cannot be read"

namespace Recording

/-! ## The document -/

/-- The recording of a document. -/
def ofText (text : String) (package : JsonPackage := .standard) :
    Except RecordingError Recording :=
  (package.read Message.ofJson text).mapError .json

/-- The document of numbered values. -/
def document (entries : List (Nat × Json)) : Json :=
  .object [("entries", .array (entries.map fun e =>
    .object [("seq", .integer e.1), ("message", e.2)]))]

/-- The JSON value of a recording. -/
def toJson (r : Recording) : Json := document (r.entries.map fun e => (e.seq, e.message.toJson))

/-- The document of a recording. -/
def text (r : Recording) (package : JsonPackage := .standard) : String := package.write r.toJson

/-! ## Lines of messages -/

/-- The messages of lines. Blank lines are passed over but counted. -/
def messagesOfLines : List (String × Nat) → Except RecordingError (List Message)
  | [] => .ok []
  | (line, index) :: rest =>
    if line = "" then messagesOfLines rest
    else match Message.ofText line with
      | .error e => .error (.line (index + 1) e)
      | .ok m => (messagesOfLines rest).map (m :: ·)

/-- The recording of a message for each line that is not blank. -/
def ofLines (text : String) : Except RecordingError Recording :=
  (messagesOfLines (Text.trimmedLines text).zipIdx).map fun messages =>
    ⟨messages.zipIdx.map fun (m, seq) => ⟨seq, m⟩⟩

/-! ## Files -/

/-- What follows the last point in the name of a file. A point that begins the name does not
count. -/
def extension? (path : String) : Option String :=
  let name := (path.toList.splitOn '/').getLastD []
  let reversed := (name.drop 1).reverse
  if reversed.contains '.' then some (String.ofList (reversed.takeWhile (· ≠ '.')).reverse)
  else none

/-- The recording in a file: lines of messages by the ending of its name, else a document. -/
def ofFile (files : String → Option String) (path : String) : Except RecordingError Recording :=
  match files path with
  | none => .error .unreadable
  | some contents =>
    match extension? path with
    | some "ndjson" | some "jsonl" => ofLines contents
    | _ => ofText contents

end Recording

end TableMotion
