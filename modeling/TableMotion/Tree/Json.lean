import TableMotion.Tree
import TableMotion.Amount.Text
import TableMotion.Json.Printer

/-!
# Trees and JSON

A number that fits becomes an amount, and so does a string that reads like one; every other scalar
is kept as it is. A whole amount is written as an integer, any other as the floating number nearest
to it.
-/

namespace TableMotion

namespace Tree

/-- Whether a string may be an amount: no plus sign, and no leading zero before other digits. -/
def looksLikeAmount (s : String) : Bool :=
  let unsigned := match s.toList with
    | '-' :: cs => cs
    | cs => cs
  let whole := unsigned.takeWhile (· ≠ '.')
  unsigned.head? ≠ some '+' && !(whole.length > 1 && whole.head? = some '0')

/-- A string as an amount, or as a text. -/
def ofString (s : String) : Tree :=
  if looksLikeAmount s then
    match Amount.ofText s with
    | .ok a => .amount a
    | .error _ => .text s
  else .text s

/-- An integer as an amount. One that does not fit is tried as a floating number, and is otherwise
a text. -/
def ofInteger (n : Int) : Tree :=
  let exact := if -0x8000000000000000 ≤ n ∧ n < 0x8000000000000000 then Amount.ofInt? n else none
  match exact.or (Amount.ofBinary64? (Binary64.ofInt n)) with
  | some a => .amount a
  | none => .text (String.ofList (Json.integerChars n))

/-- A floating number as an amount, or as a text. -/
def ofReal (x : FiniteBinary64) : Tree :=
  match Amount.ofBinary64? x.1 with
  | some a => .amount a
  | none => .text (String.ofList (Json.realChars x))

mutual

/-- The tree of a JSON value. -/
def ofJson : Json → Tree
  | .null => .null
  | .bool b => .bool b
  | .integer n => ofInteger n
  | .real x => ofReal x
  | .text s => ofString s
  | .array items => .list (ofItems items)
  | .object members => .map (ofMembers members)

/-- The trees of the items of an array. -/
def ofItems : List Json → List Tree
  | [] => []
  | v :: rest => ofJson v :: ofItems rest

/-- The trees of the members of an object. -/
def ofMembers : List (String × Json) → List (String × Tree)
  | [] => []
  | (key, v) :: rest => (key, ofJson v) :: ofMembers rest

end

/-- An amount as a JSON number. -/
def amountToJson (a : Amount) : Json :=
  if a.isWhole then .integer a.whole else Json.ofBinary64 a.toBinary64

mutual

/-- The JSON value of a tree. -/
def toJson : Tree → Json
  | .null => .null
  | .bool b => .bool b
  | .amount a => amountToJson a
  | .text s => .text s
  | .list items => .array (itemsToJson items)
  | .map fields => .object (fieldsToJson fields)

/-- The JSON values of a list. -/
def itemsToJson : List Tree → List Json
  | [] => []
  | t :: rest => toJson t :: itemsToJson rest

/-- The JSON members of a map. -/
def fieldsToJson : List (String × Tree) → List (String × Json)
  | [] => []
  | (key, t) :: rest => (key, toJson t) :: fieldsToJson rest

end

end Tree

end TableMotion
