/-!
# Blank characters

The characters that Unicode counts as white space, and texts without them at their ends.
-/

namespace TableMotion

namespace Text

/-- The code points of white space, as ranges with both ends. -/
def blankRanges : List (Nat × Nat) := [
  (0x09, 0x0D), (0x20, 0x20), (0x85, 0x85), (0xA0, 0xA0), (0x1680, 0x1680), (0x2000, 0x200A),
  (0x2028, 0x2029), (0x202F, 0x202F), (0x205F, 0x205F), (0x3000, 0x3000)]

def isBlank (c : Char) : Bool := blankRanges.any fun r => r.1 ≤ c.toNat && c.toNat ≤ r.2

/-- A text without the blanks at its ends. -/
def trimmed (cs : List Char) : List Char :=
  ((cs.dropWhile isBlank).reverse.dropWhile isBlank).reverse

/-- The lines of a text, without the blanks at their ends. -/
def trimmedLines (s : String) : List String :=
  (s.toList.splitOn '\n').map fun line => String.ofList (trimmed line)

end Text

end TableMotion
