import TableMotion.Tree
import TableMotion.Path.Text

/-!
# Reading and writing in a tree

A write goes to one place: a key of a map, or an index of a list that exists or is one past the
end. The node that holds the place must be there already. A write that fails says why and leaves no
tree, so the caller still has the one it began with; in place it leaves what then stands there.
-/

namespace TableMotion

/-- Why nothing can be written at a path. -/
inductive WriteFault where
  /-- The node that holds the place is not there, or is a list and the key names no index. -/
  | unreachable
  /-- The node that holds the place is neither a map nor a list. -/
  | scalarParent
  /-- The index lies past the end of the list. -/
  | pastEnd
  /-- The whole tree is to be removed. -/
  | wholeTree
deriving DecidableEq

/-- A write that failed, with its path. -/
structure WriteError where
  fault : WriteFault
  path : Path
deriving DecidableEq

def WriteError.message (e : WriteError) : String :=
  match e.fault with
  | .unreachable => "path " ++ e.path.text ++ " does not resolve"
  | .scalarParent => "parent of " ++ e.path.text ++ " is not a map or list"
  | .pastEnd => "list index at " ++ e.path.text ++ " is out of range"
  | .wholeTree => "the root of a tree cannot be removed"

namespace Tree

/-! ## One step -/

/-- The node under a key of a map, or at the index of a list that the key names. -/
def child? : Tree → String → Option Tree
  | .map fields, key => Dictionary.find? fields key
  | .list items, key => (Path.index? key).bind (items[·]?)
  | _, _ => none

/-- Replaces the node under a key that is there. -/
def replaceChild (t : Tree) (key : String) (value : Tree) : Tree :=
  match t with
  | .map fields => .map (Dictionary.insert key value fields)
  | .list items =>
    match Path.index? key with
    | some i => .list (items.set i value)
    | none => t
  | _ => t

/-- Writes under a key: a map takes any, a list an index up to its length. -/
def setChild (t : Tree) (key : String) (value : Tree) : Except WriteFault Tree :=
  match t with
  | .map fields => .ok (.map (Dictionary.insert key value fields))
  | .list items =>
    match Path.index? key with
    | none => .error .unreachable
    | some i =>
      if i < items.length then .ok (.list (items.set i value))
      else if i = items.length then .ok (.list (items ++ [value]))
      else .error .pastEnd
  | _ => .error .scalarParent

/-- Takes out what is under a key, if anything is. A list closes the gap. -/
def removeChild (t : Tree) (key : String) : Except WriteFault (Option Tree × Tree) :=
  match t with
  | .map fields => .ok (Dictionary.find? fields key, .map (Dictionary.erase fields key))
  | .list items =>
    match Path.index? key with
    | none => .error .unreachable
    | some i => .ok (items[i]?, .list (items.eraseIdx i))
  | _ => .error .scalarParent

/-! ## Along a path -/

/-- The node at a path. -/
def get? (t : Tree) : Path → Option Tree
  | [] => some t
  | key :: rest => (t.child? key).bind (get? · rest)

/-- Writes at a path, with the reason if that fails. -/
def write (value : Tree) : Path → Tree → Except WriteFault Tree
  | [], _ => .ok value
  | [key], t => t.setChild key value
  | key :: rest, t =>
    match t.child? key with
    | none => .error .unreachable
    | some c => (write value rest c).map (t.replaceChild key)

/-- Takes out the node at a path, with the reason if that fails. -/
def takeOut : Path → Tree → Except WriteFault (Option Tree × Tree)
  | [], _ => .error .wholeTree
  | [key], t => t.removeChild key
  | key :: rest, t =>
    match t.child? key with
    | none => .error .unreachable
    | some c => (takeOut rest c).map fun r => (r.1, t.replaceChild key r.2)

/-- Writes a node at a path. -/
def set (t : Tree) (p : Path) (value : Tree) : Except WriteError Tree :=
  (write value p t).mapError (⟨·, p⟩)

/-- Removes the node at a path and gives it. That nothing is there is no error. -/
def remove (t : Tree) (p : Path) : Except WriteError (Option Tree × Tree) :=
  (takeOut p t).mapError (⟨·, p⟩)

/-- Writes a node, or removes what is there for none. -/
def put (t : Tree) (p : Path) : Option Tree → Except WriteError Tree
  | some value => t.set p value
  | none => (t.remove p).map (·.2)

/-- Replaces the node at a path and gives the one that was there. -/
def exchange? (t : Tree) (p : Path) (value : Tree) : Option (Tree × Tree) :=
  match t.get? p, t.set p value with
  | some old, .ok changed => some (old, changed)
  | _, _ => none

/-! ## In place -/

/-- The node at a path, and the tree around whatever takes its place. -/
def focus? (t : Tree) : Path → Option (Tree × (Tree → Tree))
  | [] => some (t, id)
  | key :: rest =>
    (t.child? key).bind fun c =>
      (focus? c rest).map fun f => (f.1, fun e => t.replaceChild key (f.2 e))

/-- Works on the node at a path where it stands. Where the work is refused, the node goes back as it
was. -/
def workAt {α : Type} (t : Tree) (p : Path) (work : Tree → Except WriteFault (α × Tree)) :
    Except WriteFault α × Tree :=
  match t.focus? p with
  | none => (.error .unreachable, t)
  | some (d, back) =>
    match work d with
    | .error fault => (.error fault, back d)
    | .ok (answer, e) => (.ok answer, back e)

/-- Writes a node in the tree itself. -/
def setInPlace (t : Tree) (p : Path) (x : Tree) : Except WriteError Unit × Tree :=
  match p.parent?, p.getLast? with
  | none, _ => (.ok (), x)
  | some _, none => (.error ⟨.unreachable, p⟩, t)
  | some above, some key =>
    let r := t.workAt above fun d => (d.setChild key x).map ((), ·)
    (r.1.mapError (⟨·, p⟩), r.2)

/-- Removes a node in the tree itself. -/
def removeInPlace (t : Tree) (p : Path) : Except WriteError (Option Tree) × Tree :=
  match p.parent?, p.getLast? with
  | some above, some key =>
    let r := t.workAt above (·.removeChild key)
    (r.1.mapError (⟨·, p⟩), r.2)
  | _, _ => (.error ⟨.wholeTree, p⟩, t)

/-- Writes a node in the tree itself, or removes what is there for none. -/
def putInPlace (t : Tree) (p : Path) : Option Tree → Except WriteError Unit × Tree
  | some x => t.setInPlace p x
  | none =>
    let r := t.removeInPlace p
    (r.1.map fun _ => (), r.2)

/-! ## One step, seen through the children -/

theorem child?_setChild_self {t u : Tree} {key : String} {value : Tree}
    (h : t.setChild key value = .ok u) : u.child? key = some value := by
  unfold setChild at h
  split at h
  · cases h
    simp [child?]
  · split at h
    · cases h
    · rename_i i named
      split at h
      · cases h
        simp [child?, *]
      · split at h
        · cases h
          simp [child?, *]
        · cases h
  · cases h

theorem child?_setChild_of_ne {t u : Tree} {key other : String} {value : Tree}
    (h : t.setChild key value = .ok u) (different : key ≠ other) :
    u.child? other = t.child? other := by
  have indices {i j : Nat} (named : Path.index? key = some i)
      (located : Path.index? other = some j) : i ≠ j := fun same => different <| by
    rw [(Path.eq_indexKey_of_index? named).1, (Path.eq_indexKey_of_index? located).1, same]
  unfold setChild at h
  split at h
  · cases h
    simp [child?, Dictionary.find?_insert_of_ne _ _ different]
  · split at h
    · cases h
    · rename_i i named
      rcases located : Path.index? other with _ | j
      · split at h
        · cases h
          simp [child?, located]
        · split at h
          · cases h
            simp [child?, located]
          · cases h
      · have := indices named located
        split at h
        · cases h
          simp [child?, located, this]
        · split at h
          · cases h
            simp only [child?, located, Option.bind_some]
            grind
          · cases h
  · cases h

theorem child?_replaceChild_self {t : Tree} {key : String} (value : Tree)
    (h : (t.child? key).isSome) : (t.replaceChild key value).child? key = some value := by
  unfold child? at h
  unfold replaceChild
  split
  · simp [child?]
  · split
    · rename_i i named
      simp only [named, Option.bind_some] at h
      simp only [child?, named, Option.bind_some]
      grind
    · simp_all
  · simp_all

theorem child?_replaceChild_of_ne (t : Tree) {key other : String} (value : Tree)
    (different : key ≠ other) : (t.replaceChild key value).child? other = t.child? other := by
  unfold replaceChild
  split
  · simp [child?, Dictionary.find?_insert_of_ne _ _ different]
  · split
    · rename_i i named
      rcases located : Path.index? other with _ | j
      · simp [child?, located]
      · have : i ≠ j := fun same => different <| by
          rw [(Path.eq_indexKey_of_index? named).1, (Path.eq_indexKey_of_index? located).1, same]
        simp [child?, located, this]
    · rfl
  · rfl

/-! ## Along a path, key by key -/

@[simp] theorem get?_root (t : Tree) : t.get? Path.root = some t := by
  simp [Path.root, get?]

theorem get?_cons (t : Tree) (key : String) (p : Path) :
    t.get? (key :: p) = (t.child? key).bind (·.get? p) := by
  simp [get?]

theorem get?_append (t : Tree) (p q : Path) :
    t.get? (p ++ q) = (t.get? p).bind (·.get? q) := by
  induction p generalizing t with
  | nil => simp [get?]
  | cons key p ih =>
    rw [List.cons_append, get?_cons, get?_cons]
    cases t.child? key with
    | none => rfl
    | some c => exact ih c

theorem write_cons (value : Tree) (key next : String) (p : Path) (t : Tree) :
    write value (key :: next :: p) t = match t.child? key with
      | none => .error .unreachable
      | some c => (write value (next :: p) c).map (t.replaceChild key) := by
  simp [write]

theorem takeOut_cons (key next : String) (p : Path) (t : Tree) :
    takeOut (key :: next :: p) t = match t.child? key with
      | none => .error .unreachable
      | some c => (takeOut (next :: p) c).map fun r => (r.1, t.replaceChild key r.2) := by
  simp [takeOut]

end Tree

end TableMotion
