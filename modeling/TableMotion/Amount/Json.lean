import TableMotion.Amount.Text
import TableMotion.Json.Shape

/-!
# Amounts in JSON

An amount is written as its text. It is read from a number or from a text; one that does not fit is
reported with the number as it would be said in a message.
-/

namespace TableMotion

namespace Amount

/-- The amount that a scalar stands for, if it is a number or a text. -/
def ofScalar : Json → Option (Except TextError Amount)
  | .integer n =>
    some (match ofInt? n with
      | some a => .ok a
      | none => .error (.outOfRange (String.ofList (Json.integerChars n))))
  | .real x =>
    some (match ofBinary64? x.1 with
      | some a => .ok a
      | none => .error (.outOfRange x.1.plainText))
  | .text s => some (ofText s)
  | _ => none

/-- Takes an amount. -/
def reader : Json.Reader Amount := do
  match ← Json.Reader.scalarOf "a number or a decimal string" ofScalar with
  | .ok a => return a
  | .error e => Json.Reader.refuse e.message

/-- The amount of a JSON text. -/
def ofJsonText (text : String) : Except Json.Fault Amount := Json.readText reader text

/-- An amount as a JSON value. -/
def toJson (a : Amount) : Json := .text a.text

end Amount

end TableMotion
