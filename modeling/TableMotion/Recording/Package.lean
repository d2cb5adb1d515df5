import TableMotion.Recording
import TableMotion.Message.Wire

/-!
# JSON packages

Recordings are written and read by a package that is not part of this library. It is asked for two
things: the text of a value, and the recording in a text, for which it is handed the decoder of
messages. `JsonPackage.standard` is the package that runs here.
-/

namespace TableMotion

/-- What is asked of a JSON package. -/
structure JsonPackage where
  /-- The text of a value. -/
  write : Json → String
  /-- The recording in a text. Each message is decoded from the value that stands in its place. -/
  read : (Json → Except WireError Message) → String → Except Json.Fault Recording

namespace JsonPackage

/-- An entry that is being read. -/
structure EntryDraft where
  seq : Option Nat
  message : Option Message

section

variable (decode : Json → Except WireError Message)

/-- Takes a value and decodes it. -/
def messageReader (depth : Nat) : Json.Reader Message := do
  match decode (← Json.Reader.value depth) with
  | .ok m => return m
  | .error e => Json.Reader.refuse e.message

/-- The fields of an entry. -/
def entryFields : List (Json.Reader.FieldReader EntryDraft) := [
  { name := "seq", isSet := fun d => d.seq.isSome, inObject := true, inArray := true
    read := fun _ d => return { d with seq := some (← Json.Reader.natural) } },
  { name := "message", isSet := fun d => d.message.isSome, inObject := true, inArray := true
    read := fun depth d => return { d with message := some (← messageReader decode depth) } }]

/-- Takes an entry. A record that was read has both of its fields. -/
def entryReader (depth : Nat) : Json.Reader Entry := do
  let d ← Json.Reader.record depth "struct SessionEntry" (entryFields decode) ⟨none, none⟩
  match d with
  | ⟨some seq, some message⟩ => return ⟨seq, message⟩
  | _ => throw .malformed

/-- The one field of a recording. -/
def fields : List (Json.Reader.FieldReader (Option (List Entry))) := [
  { name := "entries", isSet := Option.isSome, inObject := false, inArray := false
    read := fun depth _ => return some (← Json.Reader.list depth (entryReader decode)) }]

/-- Takes a recording. -/
def reader : Json.Reader Recording := do
  let entries ← Json.Reader.record Json.nestingLimit "struct RecordedSession" (fields decode) none
  return ⟨entries.getD []⟩

end

/-- The package that runs here. Texts are in the wide layout. -/
def standard : JsonPackage where
  write := Json.wide
  read := fun decode => Json.readText (reader decode)

end JsonPackage

end TableMotion
