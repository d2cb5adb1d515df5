import TableMotion.Change
import TableMotion.Easing

/-!
# Timings

A timing says how one change is shown: for how long, with which easing, how it joins what is already
under way on its path, and where a value that cannot be eased switches.
-/

namespace TableMotion

/-- A hint for drawing. It changes no value. -/
inductive Presentation where
  | become
  | translateToTop
  | tween
deriving DecidableEq

/-- How a transition joins those on its path. -/
inductive Joining where
  /-- It interrupts those under way and starts from where they are. -/
  | override
  /-- It waits for the last of them. -/
  | chain
deriving DecidableEq

namespace Presentation

/-- Every presentation with its name. -/
def names : List (String × Presentation) :=
  [("BECOME", .become), ("TRANSLATE_TO_TOP", .translateToTop), ("TWEEN", .tween)]

def name : Presentation → String
  | .become => "BECOME"
  | .translateToTop => "TRANSLATE_TO_TOP"
  | .tween => "TWEEN"

/-- The presentation of a change that no rule names: amounts are tweened. -/
def ofChange (c : Change) : Presentation := if c.isOfAmounts then .tween else .become

end Presentation

namespace Joining

/-- Every way of joining with its name. -/
def names : List (String × Joining) := [("override", .override), ("chain", .chain)]

def name : Joining → String
  | .override => "override"
  | .chain => "chain"

end Joining

/-- How a change is shown. -/
structure Timing where
  duration : Binary64
  easing : Easing := .linear
  presentation : Presentation := .become
  joining : Joining := .override
  /-- The progress at which a value that cannot be eased becomes the new one. -/
  switchPoint : Binary64 := Binary64.half
deriving DecidableEq

/-- The same duration for every change. -/
def Timing.fixed (duration : Binary64) (c : Change) : Timing :=
  { duration, presentation := Presentation.ofChange c }

end TableMotion
