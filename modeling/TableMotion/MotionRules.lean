import TableMotion.MotionRules.Pattern
import TableMotion.Timing

/-!
# Motion rules

The rules of a table decide the timing of each change by its path. The first rule whose pattern
covers the path counts; what it leaves open is taken from the defaults.
-/

namespace TableMotion

/-- The timing of the paths of a pattern, where it differs from the defaults. -/
structure Rule where
  pattern : Pattern
  duration : Option Binary64
  easing : Option Easing
  presentation : Option Presentation
  joining : Option Joining
  switchPoint : Option Binary64
deriving DecidableEq

/-- How the changes of a table are shown. Times are in milliseconds. -/
structure MotionRules where
  duration : Binary64 := 300
  easing : Easing := .linear
  switchPoint : Binary64 := Binary64.half
  /-- How long a transition that is over stays before it is pruned. -/
  pruneGrace : Binary64 := 1000
  /-- Whether a tick backward ends the program; left open here if absent. -/
  fatalRegressions : Option Bool := none
  rules : List Rule := []
deriving DecidableEq

namespace MotionRules

/-- The rule that counts for a path. -/
def ruleFor? (m : MotionRules) (p : Path) : Option Rule := m.rules.find? fun r => r.pattern.covers p

/-- The timing of a change. -/
def timingOf (m : MotionRules) (c : Change) : Timing :=
  let rule := m.ruleFor? c.path
  { duration := (rule.bind (·.duration)).getD m.duration
    easing := (rule.bind (·.easing)).getD m.easing
    presentation := (rule.bind (·.presentation)).getD (Presentation.ofChange c)
    joining := (rule.bind (·.joining)).getD .override
    switchPoint := (rule.bind (·.switchPoint)).getD m.switchPoint }

end MotionRules

end TableMotion
