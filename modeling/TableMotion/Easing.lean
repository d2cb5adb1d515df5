import TableMotion.Binary64.Arithmetic

/-!
# Easing

A transition moves through its span of time from `0` to `1`. An easing bends that progress; every
easing keeps both ends.
-/

namespace TableMotion

/-- How the progress of an amount is bent. A step holds the start until the switch point. -/
inductive Easing where
  | linear
  | easeIn
  | easeOut
  | easeInOut
  | step
deriving DecidableEq

namespace Easing

/-- Every easing with its name. -/
def names : List (String × Easing) := [
  ("linear", .linear), ("ease_in", .easeIn), ("ease_out", .easeOut), ("ease_in_out", .easeInOut),
  ("step", .step)]

def name : Easing → String
  | .linear => "linear"
  | .easeIn => "ease_in"
  | .easeOut => "ease_out"
  | .easeInOut => "ease_in_out"
  | .step => "step"

/-- Bends progress, which is first held to the span from `0` to `1`. -/
def bend (easing : Easing) (progress : Binary64) : Binary64 :=
  let p := progress.clamp 0 1
  match easing with
  | .linear => p
  | .easeIn => p * p
  | .easeOut => 1 - (1 - p) * (1 - p)
  | .easeInOut => p * p * (3 - 2 * p)
  | .step => if 1 ≤ p then 1 else 0

end Easing

/-- How much of the span from `start` to `finish` has passed at a time. A span without length
passes at once, and one without end never. -/
def progress (start finish time : Binary64) : Binary64 :=
  let span := finish - start
  if !span.isFinite then 0
  else if span ≤ 0 then (if start ≤ time then 1 else 0)
  else ((time - start) / span).clamp 0 1

end TableMotion
