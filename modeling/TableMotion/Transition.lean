import TableMotion.Path.Order
import TableMotion.Timing

/-!
# Transitions

A transition takes one path from a value to another over a span of time. Amounts are eased; any
other pair switches once. Of several transitions on a path at most one is drawn: those that have
started go before those that have not, the latest start goes first among the started and the
earliest among the others, and insertion decides where starts are equal.
-/

namespace TableMotion

/-- A change of one path over time. Absent values say that nothing is there. -/
structure Transition where
  id : Nat
  path : Path
  presentation : Presentation
  start : Option Tree
  finish : Option Tree
  startTime : Binary64
  endTime : Binary64
  duration : Binary64
  easing : Easing
  switchPoint : Binary64
  /-- The message that caused the transition. -/
  source : Option Nat
  joining : Joining
deriving DecidableEq

namespace Transition

/-- A transition without end holds its value for good. -/
def isEndless (r : Transition) : Bool := r.endTime = Binary64.infinity false

/-- Whether the transition is over before a time. -/
def isOverBefore (r : Transition) (time : Binary64) : Bool := !r.isEndless && r.endTime < time

/-- Whether the transition is under way at a time. -/
def isUnderWayAt (r : Transition) (time : Binary64) : Bool := r.startTime ≤ time && time < r.endTime

/-- Precedence: by start in the total order of numbers, then by insertion. -/
def precedence (a b : Transition) : Ordering :=
  (a.startTime.totalCompare b.startTime).then (compare a.id b.id)

/-- Whether `a` is drawn at a time rather than `b`. -/
def prevailsAt (a b : Transition) (time : Binary64) : Bool :=
  if a.startTime ≤ time then
    if b.startTime ≤ time then a.precedence b = .gt else true
  else
    if b.startTime ≤ time then false else a.precedence b = .lt

/-- The value before the switch point of a progress, or behind it. -/
def switched (r : Transition) (progress : Binary64) : Option Tree :=
  if progress < r.switchPoint then r.start else r.finish

/-- The value at a time. It is exact at both ends and outside of them. -/
def valueAt (r : Transition) (time : Binary64) : Option Tree :=
  if r.duration ≤ 0 ∧ r.startTime ≤ time then r.finish
  else if time ≤ r.startTime then r.start
  else if r.endTime ≤ time then r.finish
  else
    let passed := progress r.startTime r.endTime time
    match r.start, r.finish with
    | some (.amount a), some (.amount b) =>
      if r.easing = .step then r.switched passed
      else some (.amount (a.lerp b (r.easing.bend passed)))
    | _, _ => r.switched passed

end Transition

end TableMotion
