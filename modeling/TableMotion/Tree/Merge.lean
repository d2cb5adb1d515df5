import TableMotion.Tree

/-!
# Merging trees

A map merges into a map key by key. Anything else replaces what it is merged into.
-/

namespace TableMotion

namespace Tree

mutual

/-- Merges a patch into a tree. -/
def merge : Tree → Tree → Tree
  | .map fields, .map patch => .map (mergeFields fields patch)
  | _, patch => patch
termination_by structural _ patch => patch

/-- Merges the fields of a patch, one after another. -/
def mergeFields (fields : List (String × Tree)) : List (String × Tree) → List (String × Tree)
  | [] => fields
  | (key, patch) :: rest =>
    let merged := match Dictionary.find? fields key with
      | some t => merge t patch
      | none => patch
    mergeFields (Dictionary.insert key merged fields) rest
termination_by structural patch => patch

end

end Tree

end TableMotion
