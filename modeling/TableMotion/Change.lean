import TableMotion.Tree.Access

/-!
# Differences between trees

`Tree.changes` lists what has to be written to turn one tree into another. A node that changes its
kind is one change. Keys of a map that are gone or differ come before new ones; a list grows upward
from its end and shrinks downward, so the changes can be applied in their order.
-/

namespace TableMotion

/-- A difference at a path. `none` on a side says that nothing is there. -/
structure Change where
  path : Path
  old : Option Tree
  new : Option Tree
deriving DecidableEq

inductive ChangeKind where
  | added
  | removed
  | changed
deriving DecidableEq

namespace Change

def kind (c : Change) : ChangeKind :=
  match c.old, c.new with
  | none, _ => .added
  | _, none => .removed
  | _, _ => .changed

/-- Whether both sides are amounts. -/
def isOfAmounts (c : Change) : Bool :=
  (c.old.bind Tree.amount?).isSome && (c.new.bind Tree.amount?).isSome

/-- The same change seen from the node that has this one under a key. -/
def under (key : String) (c : Change) : Change := { c with path := key :: c.path }

end Change

namespace Tree

/-- The changes of the items that one list has past the end of another, which has `length` items:
the first of them is added first. -/
def addedItems (length : Nat) (items : List Tree) : List Change :=
  items.mapIdx fun i t => ⟨[Path.indexKey (length + i)], none, some t⟩

/-- The changes of items past the end of the new list: the last of them is removed first. -/
def removedItems (length : Nat) (items : List Tree) : List Change :=
  (items.mapIdx fun i t => (⟨[Path.indexKey (length + i)], some t, none⟩ : Change)).reverse

/-- The changes of the keys that only the new map has. -/
def addedFields (old new : Dictionary Tree) : List Change :=
  (new.filter fun e => (Dictionary.find? old e.1).isNone).map fun e => ⟨[e.1], none, some e.2⟩

mutual

/-- What turns the first tree into the second. -/
def changes (old new : Tree) : List Change :=
  if old = new then []
  else match old, new with
    | .map before, .map after => changedFields before after ++ addedFields before after
    | .list before, .list after => changedItems 0 before after
    | _, _ => [⟨Path.root, some old, some new⟩]
termination_by structural old

/-- The changes of the keys that the old map has. -/
def changedFields (before after : List (String × Tree)) : List Change :=
  match before with
  | [] => []
  | (key, old) :: rest =>
    (match Dictionary.find? after key with
      | some new => (changes old new).map (Change.under key)
      | none => [⟨[key], some old, none⟩]) ++ changedFields rest after
termination_by structural before

/-- The changes of items from `index` on. -/
def changedItems (index : Nat) (before after : List Tree) : List Change :=
  match before, after with
  | [], added => addedItems index added
  | old :: rest, [] => removedItems index (old :: rest)
  | old :: rest, new :: more =>
    (changes old new).map (Change.under (Path.indexKey index)) ++
      changedItems (index + 1) rest more
termination_by structural before

end

/-- Applies one change. A change that cannot be applied is reported and leaves the tree alone. -/
def applyChange (s : Tree × List WriteError) (c : Change) : Tree × List WriteError :=
  match s.1.put c.path c.new with
  | .ok t => (t, s.2)
  | .error e => (s.1, s.2 ++ [e])

/-- Applies changes in their order; gives the tree and what was skipped. -/
def applyChanges (t : Tree) (cs : List Change) : Tree × List WriteError :=
  cs.foldl applyChange (t, [])

end Tree

end TableMotion
