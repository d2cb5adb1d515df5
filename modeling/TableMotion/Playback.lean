import TableMotion.Playback.Arguments
import TableMotion.MotionRules.Json
import TableMotion.Recording.Text
import TableMotion.Transition.Json

/-!
# Playback

A run replays a recording and prints what a table then shows, as wide JSON. It takes files
and its environment as values and so is a function of them.
-/

namespace TableMotion

namespace Playback

/-! ## Times of a timeline -/

/-- Why a range of times is refused. -/
inductive RangeError where
  | unbounded
  | stepNotPositive
  | backward
  | tooLong (count : Binary64)
deriving DecidableEq

/-- The most times that a timeline may have. -/
def sampleLimit : Nat := 100000

def RangeError.message : RangeError → String
  | .unbounded => "--from and --to must be finite"
  | .stepNotPositive => "--step must be positive"
  | .backward => "--to must not precede --from"
  | .tooLong count =>
    "timeline would take " ++ count.plainText ++ " samples (limit " ++
      Nat.repr sampleLimit ++ ")"

/-- The times from `start` on, a step apart, that are not past `finish`. -/
def sampleTimes (start finish step : Binary64) : Except RangeError (List Binary64) :=
  let steps := (finish - start) / step
  let count := Binary64.ofInt steps.floorInt + 1
  if !start.isFinite || !finish.isFinite then .error .unbounded
  else if ¬ (step.isFinite ∧ 0 < step) then .error .stepNotPositive
  else if finish < start then .error .backward
  else if Binary64.ofInt sampleLimit < count then .error (.tooLong count)
  else .ok ((List.range count.nearestInt.toNat).map fun (i : Nat) =>
    start + Binary64.ofInt i * step)

/-! ## Commands -/

/-- What is drawn at a path or at the root, as JSON. -/
def drawnJson (t : Table) (path : Option Path) : Json := Json.ofOption Tree.toJson (t.drawn? path)

/-- What a command prints, given where the rules came from. -/
def print (rulesSource : String) (t : Table) (r : Recording) :
    Command → Except RangeError Json
  | .render target path counters =>
    let (report, _, t) := t.replay r target
    .ok (.object ([
      ("config_source", .text rulesSource), ("report", report.toJson),
      ("state", drawnJson t (path.map Path.ofText))] ++
      if counters then [("metrics", t.tally.toJson)] else []))
  | .timeline path start finish step => do
    let times ← sampleTimes start finish step
    return .array (times.map fun time =>
      let (_, _, t) := t.replay r (.time time)
      .object [("time", Json.ofBinary64 time),
        ("value", drawnJson t (some (Path.ofText path)))])
  | .records target =>
    let (_, _, t) := t.replay r target
    .ok (.array (t.schedule.transitions.map Transition.toJson))

/-! ## Runs -/

/-- How a run ends: its exit status, what it prints, and what it complains of. -/
structure Exit where
  status : Nat
  output : String
  complaint : String
deriving DecidableEq

/-- A run that found nothing to print. -/
def refused (reason : String) : Exit := ⟨1, "", "Error: " ++ reason ++ "\n"⟩

/-- The words that a run understands. -/
def usage : String :=
  "usage: --session FILE [--config FILE] render [--seq N | --time T] [--path PATH] [--metrics]\n" ++
  "       --session FILE [--config FILE] timeline --path PATH [--from T] --to T [--step T]\n" ++
  "       --session FILE [--config FILE] records [--seq N | --time T]\n"

/-- A run that did not understand its words. -/
def misused : Exit := ⟨2, "", usage⟩

/-- A run on some words. `rulesPath` names the file of the rules where no word does. -/
def run (files : String → Option String) (rulesPath : Option String) (words : List String) : Exit :=
  match arguments? words with
  | none => misused
  | some arguments =>
    match Recording.ofFile files arguments.session with
    | .error e => refused ("failed to load session " ++ arguments.session ++ ": " ++ e.message)
    | .ok r =>
      let (rules, source) := MotionRules.usable files (arguments.config.or rulesPath)
      match print (source.getD "builtin") (Table.start rules) r arguments.command with
      | .error e => refused e.message
      | .ok v => ⟨0, v.wide ++ "\n", ""⟩

end Playback

end TableMotion
