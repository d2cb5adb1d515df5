import TableMotion.Transition

/-!
# Schedules

A schedule holds the transitions of a table in the order of their insertion. The first state of a
table is a baseline: a transition at the root without end. A change that interrupts others on its
path takes them out; what they would have led to is folded into the older transitions that cover
the path, so a value that only they carried is not lost.
-/

namespace TableMotion

/-- The transitions of a table. -/
structure Schedule where
  transitions : List Transition
  nextId : Nat
  /-- How many transitions were interrupted so far. -/
  interrupted : Nat
  /-- How many transitions were pruned so far. -/
  pruned : Nat
deriving DecidableEq

namespace Schedule

/-- The schedule without transitions. -/
def empty : Schedule := ⟨[], 0, 0, 0⟩

/-- The transitions on exactly this path. -/
def onPath (s : Schedule) (p : Path) : List Transition := s.transitions.filter (·.path = p)

/-- The last of the greatest elements by a comparison. -/
def greatest? (order : Transition → Transition → Ordering) : List Transition → Option Transition
  | [] => none
  | r :: rest => some (rest.foldl (fun best x => if order best x = .gt then best else x) r)

/-- The latest root transition without end. -/
def endlessRoot? (s : Schedule) : Option Transition :=
  greatest? Transition.precedence (s.transitions.filter fun r => r.path = Path.root && r.isEndless)

/-- The transition that is drawn at a path, leaving aside those above it. -/
def prevailing? (s : Schedule) (p : Path) (time : Binary64) : Option Transition :=
  match s.onPath p with
  | [] => none
  | r :: rest => some (rest.foldl (fun best x => if x.prevailsAt best time then x else best) r)

/-- Appends a transition that carries the next number. -/
def push (s : Schedule) (r : Transition) : Schedule :=
  { s with transitions := s.transitions ++ [r], nextId := s.nextId + 1 }

/-- Starts a table with a state. -/
def startWith (s : Schedule) (state : Tree) (source : Option Nat) : Schedule :=
  s.push {
    id := s.nextId, path := Path.root, presentation := .become, start := some state
    finish := some state, startTime := 0, endTime := Binary64.infinity false
    duration := Binary64.infinity false, easing := .linear, switchPoint := Binary64.half
    source, joining := .override }

/-! ## Folding -/

/-- Puts a value below a value that may be absent. At the very place it replaces it; further below
it is put if it can be. -/
def putBelow (slot : Option Tree) (below : Path) (value : Option Tree) : Option Tree :=
  if below = Path.root then value
  else slot.map fun t => match t.put below value with
    | .ok changed => changed
    | .error _ => t

/-- Folds what a transition led to into an older one that covers its path. -/
def handDown (gone holder : Transition) : Transition :=
  if holder.precedence gone = .lt then
    match gone.path.below? holder.path with
    | none => holder
    | some below =>
      { holder with
        start := putBelow holder.start below gone.finish
        finish := putBelow holder.finish below gone.finish }
  else holder

/-- Transitions by precedence, the lowest first. -/
def byPrecedence (rs : List Transition) : List Transition :=
  rs.mergeSort fun a b => (a.precedence b).isLE

/-! ## Inserting -/

/-- Whether a transition on a path is cut short by one that starts there at a time. -/
def isCutAt (p : Path) (time : Binary64) (r : Transition) : Bool :=
  !r.isEndless && r.path = p && r.startTime ≤ time && time < r.endTime

/-- Takes out the transitions on a path that run on past a time, and folds them into the older
ones. -/
def interrupt (s : Schedule) (p : Path) (time : Binary64) : Schedule :=
  let gone := s.transitions.filter (isCutAt p time)
  let kept := s.transitions.filter fun r => !isCutAt p time r
  { s with
    transitions := (byPrecedence gone).foldl (fun rs r => rs.map (handDown r)) kept
    interrupted := s.interrupted + gone.length }

/-- The transition under way on a path at a time, the latest if there are several. -/
def underWay? (s : Schedule) (p : Path) (time : Binary64) : Option Transition :=
  greatest? Transition.precedence
    ((s.onPath p).filter fun r => !r.isEndless && r.isUnderWayAt time)

/-- The transition on a path that ends last. -/
def lastToEnd? (s : Schedule) (p : Path) : Option Transition :=
  greatest? (fun a b => (a.endTime.totalCompare b.endTime).then (a.precedence b))
    ((s.onPath p).filter fun r => !r.isEndless)

/-- A duration; one that is negative or not a number counts as none. -/
def cleanDuration (d : Binary64) : Binary64 := if d.isNaN ∨ d < 0 then 0 else d

/-- When a change starts, and from which value. -/
def opening (s : Schedule) (c : Change) (time : Binary64) (joining : Joining) :
    Binary64 × Option Tree :=
  match joining with
  | .override =>
    match s.underWay? c.path time with
    | some r => (time, r.valueAt time)
    | none => (time, c.old)
  | .chain =>
    match s.lastToEnd? c.path with
    | some tail => if time < tail.endTime then (tail.endTime, tail.finish) else (time, c.old)
    | none => (time, c.old)

/-- Inserts a change that is to start at a time. -/
def insert (s : Schedule) (c : Change) (time : Binary64) (timing : Timing)
    (source : Option Nat) : Schedule :=
  let (startTime, start) := s.opening c time timing.joining
  let duration := cleanDuration timing.duration
  let cleared := match timing.joining with
    | .override => s.interrupt c.path time
    | .chain => s
  cleared.push {
    id := s.nextId, path := c.path, presentation := timing.presentation, start, finish := c.new
    startTime, endTime := startTime + duration, duration, easing := timing.easing
    switchPoint := timing.switchPoint, source, joining := timing.joining }

/-! ## Pruning -/

/-- Whether an older transition lies under the path of one that is over, and so can never be drawn
again. -/
def isShadowedBy (gone r : Transition) : Bool :=
  gone.path.isAbove r.path && r.precedence gone = .lt

/-- Drops what lies under a transition that is over; gives how many go. -/
def dropShadowed (rs : List Transition) (gone : Transition) : Nat × List Transition :=
  let left := rs.filter fun r => !isShadowedBy gone r
  (rs.length - left.length, left)

/-- Drops what lies under a transition that is over, then folds it into the older ones. -/
def retire (rs : List Transition) (gone : Transition) : List Transition :=
  (dropShadowed rs gone).2.map (handDown gone)

/-- Retires one more transition and adds to a count what goes with it. -/
def retireCounting (s : Nat × List Transition) (gone : Transition) : Nat × List Transition :=
  (s.1 + (dropShadowed s.2 gone).1, retire s.2 gone)

/-- Takes out the transitions that were over before a time, the oldest first, with everything they
hide. Gives how many go: those that are over, and what each of them drops. -/
def evict (s : Schedule) (time : Binary64) : Nat × Schedule :=
  let gone := s.transitions.filter (·.isOverBefore time)
  let kept := s.transitions.filter fun r => !r.isOverBefore time
  let (count, left) := (byPrecedence gone).foldl retireCounting (gone.length, kept)
  (count, { s with transitions := left, pruned := s.pruned + count })

/-- The schedule that a pruning leaves. -/
def prune (s : Schedule) (time : Binary64) : Schedule := (s.evict time).2

/-- Counting aside, transitions are retired one after another. -/
theorem foldl_retireCounting_snd (gone rs : List Transition) (n : Nat) :
    (gone.foldl retireCounting (n, rs)).2 = gone.foldl retire rs := by
  induction gone generalizing rs n with
  | nil => rfl
  | cons g gone ih => exact ih (retire rs g) _

/-- What is over is retired from what is not. -/
theorem prune_transitions_foldl (s : Schedule) (time : Binary64) :
    (s.prune time).transitions =
      (byPrecedence (s.transitions.filter (·.isOverBefore time))).foldl retire
        (s.transitions.filter fun r => !r.isOverBefore time) :=
  foldl_retireCounting_snd ..

end Schedule

end TableMotion
