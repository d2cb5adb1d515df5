import TableMotion.Path

/-!
# Paths as text

Each key follows a slash. Inside a key `~0` stands for `~` and `~1` for a slash. Empty keys are not
written, so the root reads back from `/` and from the empty text alike.
-/

namespace TableMotion

namespace Path

/-- A key with `~` and slashes replaced. -/
def escapeKey : List Char → List Char
  | [] => []
  | c :: cs =>
    if c = '~' then '~' :: '0' :: escapeKey cs
    else if c = '/' then '~' :: '1' :: escapeKey cs
    else c :: escapeKey cs

/-- Undoes `escapeKey`. A `~` with anything else behind it stands for itself. -/
def unescapeKey : List Char → List Char
  | '~' :: '0' :: cs => '~' :: unescapeKey cs
  | '~' :: '1' :: cs => '/' :: unescapeKey cs
  | c :: cs => c :: unescapeKey cs
  | [] => []

/-- Reads the keys between slashes and leaves out the empty ones. -/
def ofText (text : String) : Path :=
  ((text.toList.splitOn '/').filter (· ≠ [])).map fun key => String.ofList (unescapeKey key)

/-- Each key behind a slash; a lone slash for the root. -/
def text (p : Path) : String :=
  if p = [] then "/"
  else String.ofList (p.flatMap fun key => '/' :: escapeKey key.toList)

end Path

end TableMotion
