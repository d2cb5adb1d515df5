import TableMotion.Text.Hidden

/-!
# Texts as literals

A text quoted inside a message: in double quotes, on one line, with a backslash before quotes and
backslashes and with what has no shape of its own written as its number.
-/

namespace TableMotion

namespace Text

/-- The number of a character in lower-case hexadecimal digits. -/
def codeChars (c : Char) : List Char := Nat.toDigits 16 c.toNat

/-- A character of a literal. -/
def literalChar (c : Char) : List Char :=
  if c = '"' then ['\\', '"']
  else if c = '\\' then ['\\', '\\']
  else if c = '\n' then ['\\', 'n']
  else if c = '\r' then ['\\', 'r']
  else if c = '\t' then ['\\', 't']
  else if c = '\x00' then ['\\', '0']
  else if ! isHidden c then [c]
  else '\\' :: 'u' :: '{' :: codeChars c ++ ['}']

/-- A text as a literal. -/
def literal (s : String) : String := String.ofList ('"' :: s.toList.flatMap literalChar ++ ['"'])

end Text

end TableMotion
