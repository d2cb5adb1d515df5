/-!
# Signs

A number in a text may begin with one sign.
-/

namespace TableMotion

namespace Text

/-- A sign in front of a text: whether it is a minus, and what follows. -/
def takeSign : List Char → Bool × List Char
  | '-' :: cs => (true, cs)
  | '+' :: cs => (false, cs)
  | cs => (false, cs)

end Text

end TableMotion
