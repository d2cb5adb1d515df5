import TableMotion.Path

/-!
# The order of paths

Paths are compared key by key, and a path comes before those under it. Keys that name list indices
come first, in the order of their numbers; the other keys follow in the order of their text.
-/

namespace TableMotion

namespace Path

/-- Comparison of two keys under one node. -/
def compareKeys (a b : String) : Ordering :=
  match index? a, index? b with
  | some i, some j => compare i j
  | some _, none => .lt
  | none, some _ => .gt
  | none, none => compare a b

/-- Comparison of two paths. -/
def compare : Path → Path → Ordering
  | [], [] => .eq
  | [], _ :: _ => .lt
  | _ :: _, [] => .gt
  | a :: p, b :: q => (compareKeys a b).then (compare p q)

end Path

end TableMotion
