import TableMotion.Json
import TableMotion.Binary64.Text

/-!
# Writing JSON

There are two layouts. The compact one has no blanks. The wide one puts each item and member on a
line of its own, two blanks deeper than the brackets around it, and writes an empty container
without a line break.
-/

namespace TableMotion

namespace Json

/-- A lower-case hexadecimal digit. -/
def hexDigit (n : Nat) : Char := Nat.digitChar (n % 16)

/-- A character inside a string. Quotes, backslashes and characters below the blank are escaped. -/
def escapeChar (c : Char) : List Char :=
  if c = '"' then ['\\', '"']
  else if c = '\\' then ['\\', '\\']
  else if c = '\x08' then ['\\', 'b']
  else if c = '\x0c' then ['\\', 'f']
  else if c = '\n' then ['\\', 'n']
  else if c = '\r' then ['\\', 'r']
  else if c = '\t' then ['\\', 't']
  else if c < ' ' then ['\\', 'u', '0', '0', hexDigit (c.toNat / 16), hexDigit c.toNat]
  else [c]

/-- A string in quotes. -/
def quoted (s : String) : List Char := '"' :: s.toList.flatMap escapeChar ++ ['"']

/-- An integer in decimal digits. -/
def integerChars (n : Int) : List Char :=
  (if n < 0 then ['-'] else []) ++ Nat.toDigits 10 n.natAbs

/-- A finite number, always with a fraction or a power of ten. -/
def realChars (x : FiniteBinary64) : List Char := (NumberStyle.document.text x.1).toList

/-! ## The compact layout -/

mutual

/-- The characters of a value without blanks. -/
def compactChars : Json → List Char
  | .null => "null".toList
  | .bool b => if b then "true".toList else "false".toList
  | .integer n => integerChars n
  | .real x => realChars x
  | .text s => quoted s
  | .array items => '[' :: compactItems items ++ [']']
  | .object members => '{' :: compactMembers members ++ ['}']

/-- The items of an array, separated by commas. -/
def compactItems : List Json → List Char
  | [] => []
  | [v] => compactChars v
  | v :: rest => compactChars v ++ ',' :: compactItems rest

/-- The members of an object, separated by commas. -/
def compactMembers : List (String × Json) → List Char
  | [] => []
  | [(key, v)] => quoted key ++ ':' :: compactChars v
  | (key, v) :: rest => quoted key ++ ':' :: compactChars v ++ ',' :: compactMembers rest

end

/-- The compact text of a value. -/
def compact (v : Json) : String := String.ofList v.compactChars

/-! ## The wide layout -/

/-- A line break and the blanks of a depth. -/
def lineBreak (depth : Nat) : List Char := '\n' :: List.replicate (2 * depth) ' '

mutual

/-- The characters of a value whose lines stand at a depth. -/
def wideChars (depth : Nat) : Json → List Char
  | .null => "null".toList
  | .bool b => if b then "true".toList else "false".toList
  | .integer n => integerChars n
  | .real x => realChars x
  | .text s => quoted s
  | .array [] => ['[', ']']
  | .array items => '[' :: wideItems (depth + 1) items ++ lineBreak depth ++ [']']
  | .object [] => ['{', '}']
  | .object members => '{' :: wideMembers (depth + 1) members ++ lineBreak depth ++ ['}']

/-- The items of an array, each on its line. -/
def wideItems (depth : Nat) : List Json → List Char
  | [] => []
  | [v] => lineBreak depth ++ wideChars depth v
  | v :: rest => lineBreak depth ++ wideChars depth v ++ ',' :: wideItems depth rest

/-- The members of an object, each on its line. -/
def wideMembers (depth : Nat) : List (String × Json) → List Char
  | [] => []
  | [(key, v)] => lineBreak depth ++ quoted key ++ ':' :: ' ' :: wideChars depth v
  | (key, v) :: rest =>
    lineBreak depth ++ quoted key ++ ':' :: ' ' :: wideChars depth v ++
      ',' :: wideMembers depth rest

end

/-- The wide text of a value. -/
def wide (v : Json) : String := String.ofList (v.wideChars 0)

end Json

end TableMotion
