import TableMotion.Schedule
import TableMotion.Fingerprint

/-!
# Frames

A frame is the tree that is drawn at one time. On each path one transition counts; one that lies
under a path whose transition outranks it is left out. The others are written in the order of their
paths. Absent values are taken out at the end, the deepest and last first, so that no removal moves
an index that is still to be removed.
-/

namespace TableMotion

/-- The tree drawn at a time. -/
structure Frame where
  time : Binary64
  /-- Absent until there is a state. -/
  root : Option Tree
  /-- What could not be written or removed. -/
  skipped : List WriteError
deriving DecidableEq

namespace Frame

/-- The frame of a table without a state. -/
def empty (time : Binary64) : Frame := ⟨time, none, []⟩

/-- The node drawn at a path. -/
def get? (f : Frame) (p : Path) : Option Tree := f.root.bind (·.get? p)

def fingerprint (f : Frame) : UInt64 := Fingerprint.ofOptional f.root

/-- Puts a transition among those that count, in the order of their paths. Of two on one path the
one that is drawn stays. -/
def addWinner (time : Binary64) (r : Transition) : List Transition → List Transition
  | [] => [r]
  | w :: rest =>
    match Path.compare r.path w.path with
    | .lt => r :: w :: rest
    | .eq => (if r.prevailsAt w time then r else w) :: rest
    | .gt => w :: addWinner time r rest

/-- The transitions that count, one for each path, in the order of their paths. -/
def winners (time : Binary64) (rs : List Transition) : List Transition :=
  rs.foldl (fun ws r => addWinner time r ws) []

/-- Whether a transition is hidden by one above it. -/
def isHidden (time : Binary64) (ws : List Transition) (r : Transition) : Bool :=
  ws.any fun w => w.path.isAbove r.path && w.prevailsAt r time

/-- Writes the value of a transition; one that is absent is put off. A root replaces everything. -/
def draw (s : Frame × List Path) (r : Transition) : Frame × List Path :=
  let (f, removals) := s
  let value := r.valueAt f.time
  if r.path = Path.root then ({ f with root := value }, removals)
  else
    match value, f.root with
    | none, _ => (f, r.path :: removals)
    | some _, none => ({ f with skipped := f.skipped ++ [⟨.unreachable, r.path⟩] }, removals)
    | some v, some t =>
      match t.set r.path v with
      | .ok changed => ({ f with root := some changed }, removals)
      | .error e => ({ f with skipped := f.skipped ++ [e] }, removals)

/-- Takes out the node at a path. -/
def clear (f : Frame) (p : Path) : Frame :=
  match f.root with
  | none => f
  | some t =>
    match t.remove p with
    | .ok (_, changed) => { f with root := some changed }
    | .error e => { f with skipped := f.skipped ++ [e] }

/-- The frame of some transitions at a time. -/
def ofTransitions (rs : List Transition) (time : Binary64) : Frame :=
  let ws := winners time rs
  let shown := ws.filter fun r => !isHidden time ws r
  let (drawn, removals) := shown.foldl draw (Frame.empty time, [])
  removals.foldl clear drawn

end Frame

namespace Schedule

/-- The frame at a time. -/
def frameAt (s : Schedule) (time : Binary64) : Frame := Frame.ofTransitions s.transitions time

/-- Whether a transition can bear on a path: it lies on it, above it or under it. -/
def bearsOn (p : Path) (r : Transition) : Bool := r.path.covers p || p.covers r.path

/-- The node drawn at a path, from the transitions that can bear on it. -/
def valueAt (s : Schedule) (p : Path) (time : Binary64) : Option Tree :=
  (Frame.ofTransitions (s.transitions.filter (bearsOn p)) time).get? p

end Schedule

end TableMotion
