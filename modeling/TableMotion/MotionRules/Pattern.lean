import TableMotion.Path.Text

/-!
# Path patterns

A pattern is a path in which `*` stands for any key. A `**` at its end stands for any number of
keys, none included; it may stand nowhere else.
-/

namespace TableMotion

/-- A set of paths. -/
structure Pattern where
  keys : List String
  /-- Whether longer paths match too. -/
  openEnded : Bool
deriving DecidableEq

/-- A text with `**` before its end. -/
structure PatternError where
  text : String
deriving DecidableEq

def PatternError.message (e : PatternError) : String :=
  "`**` may only end a pattern: " ++ e.text

namespace Pattern

/-- Reads a pattern. -/
def ofText (text : String) : Except PatternError Pattern :=
  let keys := Path.ofText text
  let openEnded := keys.getLast? = some "**"
  let closed := if openEnded then keys.dropLast else keys
  if closed.contains "**" then .error ⟨text⟩ else .ok ⟨closed, openEnded⟩

/-- The text of a pattern. Keys stand as they are. -/
def text (p : Pattern) : String :=
  let body := String.join (p.keys.map fun key => "/" ++ key)
  if p.openEnded then body ++ "/**" else if p.keys = [] then "/" else body

/-- Whether keys match one by one; what is left of the path matches an open end. -/
def matchKeys (openEnded : Bool) : List String → Path → Bool
  | [], [] => true
  | [], _ :: _ => openEnded
  | _ :: _, [] => false
  | key :: keys, k :: rest => (key = "*" || key = k) && matchKeys openEnded keys rest

/-- Whether a path matches. -/
def covers (p : Pattern) (path : Path) : Bool := matchKeys p.openEnded p.keys path

end Pattern

end TableMotion
