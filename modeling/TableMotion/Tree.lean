import TableMotion.Amount
import TableMotion.Dictionary

/-!
# State trees

The state of a table is a tree of maps and lists over switches, amounts and texts. The keys of a
map stand in order, which makes equal trees identical: `WellFormed` says so of every map of a tree.
-/

namespace TableMotion

/-- A node of the state of a table. -/
inductive Tree where
  | null
  | bool (value : Bool)
  | amount (value : Amount)
  | text (value : String)
  | list (items : List Tree)
  | map (fields : List (String × Tree))

namespace Tree

instance : Inhabited Tree := ⟨.null⟩

/-- The map without fields. -/
def emptyMap : Tree := .map []

/-- The amount a node holds. -/
def amount? : Tree → Option Amount
  | .amount a => some a
  | _ => none

/-- The fields a node holds. -/
def fields? : Tree → Option (Dictionary Tree)
  | .map fields => some fields
  | _ => none

/-! ## Equality -/

mutual

/-- Decides whether two trees are equal. -/
def decEq : (a b : Tree) → Decidable (a = b)
  | .null, .null => isTrue rfl
  | .bool a, .bool b =>
    if h : a = b then isTrue (h ▸ rfl) else isFalse fun e => h (by injection e)
  | .amount a, .amount b =>
    if h : a = b then isTrue (h ▸ rfl) else isFalse fun e => h (by injection e)
  | .text a, .text b =>
    if h : a = b then isTrue (h ▸ rfl) else isFalse fun e => h (by injection e)
  | .list a, .list b =>
    match decEqItems a b with
    | isTrue h => isTrue (h ▸ rfl)
    | isFalse h => isFalse fun e => h (by injection e)
  | .map a, .map b =>
    match decEqFields a b with
    | isTrue h => isTrue (h ▸ rfl)
    | isFalse h => isFalse fun e => h (by injection e)
  | .null, .bool _ | .null, .amount _ | .null, .text _ | .null, .list _ | .null, .map _
  | .bool _, .null | .bool _, .amount _ | .bool _, .text _ | .bool _, .list _ | .bool _, .map _
  | .amount _, .null | .amount _, .bool _ | .amount _, .text _ | .amount _, .list _
  | .amount _, .map _
  | .text _, .null | .text _, .bool _ | .text _, .amount _ | .text _, .list _ | .text _, .map _
  | .list _, .null | .list _, .bool _ | .list _, .amount _ | .list _, .text _ | .list _, .map _
  | .map _, .null | .map _, .bool _ | .map _, .amount _ | .map _, .text _ | .map _, .list _ =>
    isFalse nofun

/-- Decides whether two rows of trees are equal. -/
def decEqItems : (a b : List Tree) → Decidable (a = b)
  | [], [] => isTrue rfl
  | [], _ :: _ | _ :: _, [] => isFalse nofun
  | x :: xs, y :: ys =>
    match decEq x y, decEqItems xs ys with
    | isTrue h, isTrue t => isTrue (h ▸ t ▸ rfl)
    | isFalse h, _ => isFalse fun e => h (by injection e)
    | _, isFalse t => isFalse fun e => t (by injection e)

/-- Decides whether two rows of fields are equal. -/
def decEqFields : (a b : List (String × Tree)) → Decidable (a = b)
  | [], [] => isTrue rfl
  | [], _ :: _ | _ :: _, [] => isFalse nofun
  | (k, x) :: xs, (l, y) :: ys =>
    if hk : k = l then
      match decEq x y, decEqFields xs ys with
      | isTrue h, isTrue t => isTrue (hk ▸ h ▸ t ▸ rfl)
      | isFalse h, _ => isFalse fun e => by
        injection e with e _
        injection e with _ e
        exact h e
      | _, isFalse t => isFalse fun e => t (by injection e)
    else isFalse fun e => by
      injection e with e _
      injection e with e _
      exact hk e

end

instance : DecidableEq Tree := decEq

/-! ## Well-formed trees -/

mutual

/-- Every map of the tree has its keys in order, each once. -/
def WellFormed : Tree → Prop
  | .list items => WellFormedItems items
  | .map fields => Dictionary.Sorted fields ∧ WellFormedFields fields
  | _ => True

/-- Every tree of a row is well formed. -/
def WellFormedItems : List Tree → Prop
  | [] => True
  | t :: rest => WellFormed t ∧ WellFormedItems rest

/-- Every field holds a well-formed tree. -/
def WellFormedFields : List (String × Tree) → Prop
  | [] => True
  | (_, t) :: rest => WellFormed t ∧ WellFormedFields rest

end

end Tree

end TableMotion
