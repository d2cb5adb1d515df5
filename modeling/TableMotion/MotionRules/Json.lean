import TableMotion.MotionRules
import TableMotion.Json.Shape

/-!
# Motion rules in JSON

Rules are read from a record in which every field may be left out. Durations must be finite and not
negative, and switch points lie between `0` and `1`. Where no file gives usable rules, the built-in
ones are taken.
-/

namespace TableMotion

/-- Why a text or a file gives no rules. -/
inductive RulesError where
  | json (fault : Json.Fault)
  /-- A field has a value out of bounds. -/
  | outOfBounds (field reason : String)
  /-- The file cannot be read. -/
  | unreadable

/-- What is said of a field out of bounds. -/
def RulesError.boundsMessage (field reason : String) : String :=
  "invalid animation config field " ++ field ++ ": " ++ reason

namespace MotionRules

open Json (Reader)
open Json.Reader (FieldReader)

/-! ## Reading -/

/-- A rule that is being read. -/
structure RuleDraft where
  pattern : Option Pattern := none
  duration : Option (Option Binary64) := none
  easing : Option (Option Easing) := none
  presentation : Option (Option Presentation) := none
  joining : Option (Option Joining) := none
  switchPoint : Option (Option Binary64) := none

/-- Takes a pattern. -/
def patternReader : Reader Pattern := do
  match Pattern.ofText (← Reader.text) with
  | .ok p => return p
  | .error e => Reader.refuse e.message

/-- The fields of a rule. -/
def ruleFields : List (FieldReader RuleDraft) := [
  { name := "pattern", isSet := fun d => d.pattern.isSome, inObject := true, inArray := true
    read := fun _ d => return { d with pattern := some (← patternReader) } },
  { name := "duration_ms", isSet := fun d => d.duration.isSome, inObject := false, inArray := true
    read := fun _ d => return { d with duration := some (← Reader.optional Reader.binary64) } },
  { name := "curve", isSet := fun d => d.easing.isSome, inObject := false, inArray := true
    read := fun depth d =>
      return { d with easing := some (← Reader.optional (Reader.choice depth Easing.names)) } },
  { name := "kind", isSet := fun d => d.presentation.isSome, inObject := false, inArray := true
    read := fun depth d => return { d with
      presentation := some (← Reader.optional (Reader.choice depth Presentation.names)) } },
  { name := "merge", isSet := fun d => d.joining.isSome, inObject := false, inArray := true
    read := fun depth d =>
      return { d with joining := some (← Reader.optional (Reader.choice depth Joining.names)) } },
  { name := "switch_point", isSet := fun d => d.switchPoint.isSome, inObject := false
    inArray := true
    read := fun _ d => return { d with switchPoint := some (← Reader.optional Reader.binary64) } }]

/-- Takes a rule. A record that was read has a pattern. -/
def ruleReader (depth : Nat) : Reader Rule := do
  let d ← Reader.record depth "struct AnimationRule" ruleFields {}
  match d.pattern with
  | none => throw .malformed
  | some pattern => return {
      pattern, duration := d.duration.join, easing := d.easing.join
      presentation := d.presentation.join, joining := d.joining.join
      switchPoint := d.switchPoint.join }

/-- Rules that are being read. -/
structure Draft where
  duration : Option Binary64 := none
  easing : Option Easing := none
  switchPoint : Option Binary64 := none
  pruneGrace : Option Binary64 := none
  fatalRegressions : Option (Option Bool) := none
  rules : Option (List Rule) := none

/-- The fields of rules. -/
def fields : List (FieldReader Draft) := [
  { name := "default_duration_ms", isSet := fun d => d.duration.isSome, inObject := false
    inArray := false
    read := fun _ d => return { d with duration := some (← Reader.binary64) } },
  { name := "default_curve", isSet := fun d => d.easing.isSome, inObject := false, inArray := false
    read := fun depth d => return { d with easing := some (← Reader.choice depth Easing.names) } },
  { name := "switch_point", isSet := fun d => d.switchPoint.isSome, inObject := false
    inArray := false
    read := fun _ d => return { d with switchPoint := some (← Reader.binary64) } },
  { name := "prune_grace_ms", isSet := fun d => d.pruneGrace.isSome, inObject := false
    inArray := false
    read := fun _ d => return { d with pruneGrace := some (← Reader.binary64) } },
  { name := "fatal_clock_regressions", isSet := fun d => d.fatalRegressions.isSome
    inObject := false, inArray := false
    read := fun _ d =>
      return { d with fatalRegressions := some (← Reader.optional Reader.switch) } },
  { name := "rules", isSet := fun d => d.rules.isSome, inObject := false, inArray := false
    read := fun depth d => return { d with rules := some (← Reader.list depth ruleReader) } }]

/-- Takes rules; what is left out has its default. -/
def reader : Reader MotionRules := do
  let d ← Reader.record Json.nestingLimit "struct AnimationConfig" fields {}
  let default : MotionRules := {}
  return {
    duration := d.duration.getD default.duration
    easing := d.easing.getD default.easing
    switchPoint := d.switchPoint.getD default.switchPoint
    pruneGrace := d.pruneGrace.getD default.pruneGrace
    fatalRegressions := d.fatalRegressions.join
    rules := d.rules.getD [] }

/-! ## Bounds -/

/-- A duration is finite and not negative. -/
def checkDuration (field : String) (x : Binary64) : Except RulesError Unit :=
  if x.isFinite ∧ 0 ≤ x then .ok ()
  else .error (.outOfBounds field (x.plainText ++ " is not a non-negative duration"))

/-- A switch point lies between `0` and `1`. -/
def checkSwitchPoint (field : String) (x : Binary64) : Except RulesError Unit :=
  if 0 ≤ x ∧ x ≤ 1 then .ok ()
  else .error (.outOfBounds field (x.plainText ++ " is outside [0, 1]"))

/-- The bounds of a rule. -/
def checkRule (r : Rule) : Except RulesError Unit := do
  let name := "rules[" ++ r.pattern.text ++ "]."
  if let some x := r.duration then checkDuration (name ++ "duration_ms") x
  if let some x := r.switchPoint then checkSwitchPoint (name ++ "switch_point") x

/-- The bounds of the defaults, then those of each rule. -/
def check (m : MotionRules) : Except RulesError Unit := do
  checkDuration "default_duration_ms" m.duration
  checkDuration "prune_grace_ms" m.pruneGrace
  checkSwitchPoint "switch_point" m.switchPoint
  m.rules.forM checkRule

/-- The rules of a document. -/
def ofText (text : String) : Except RulesError MotionRules := do
  let m ← (Json.readText reader text).mapError .json
  m.check
  return m

/-! ## Files -/

/-- The rules in a file. -/
def ofFile (files : String → Option String) (path : String) : Except RulesError MotionRules :=
  match files path with
  | none => .error .unreadable
  | some contents => ofText contents

/-- A rule that sets only a duration. -/
def ruleOf (keys : List String) (openEnded : Bool) (duration : Binary64) : Rule :=
  ⟨⟨keys, openEnded⟩, some duration, none, none, none, none⟩

/-- The rules of a table for which no file gives any. -/
def builtin : MotionRules := {
  rules := [
    { ruleOf ["players", "*", "stack"] false 1000 with
      easing := some .linear, presentation := some .tween },
    { ruleOf ["players", "*", "bet"] false 400 with
      easing := some .easeOut, joining := some .chain },
    { ruleOf ["pots"] true 600 with easing := some .easeInOut },
    { ruleOf ["board", "*"] false 250 with presentation := some .translateToTop },
    { ruleOf ["players", "*", "cards"] true 200 with
      presentation := some .become, switchPoint := some 0 },
    ruleOf ["tournament"] true 0] }

/-- The rules in a file, if one is named and usable, with its name; else the built-in ones. -/
def usable (files : String → Option String) (path : Option String) : MotionRules × Option String :=
  match path with
  | none => (builtin, none)
  | some name =>
    match ofFile files name with
    | .ok m => (m, some name)
    | .error _ => (builtin, none)

end MotionRules

end TableMotion
