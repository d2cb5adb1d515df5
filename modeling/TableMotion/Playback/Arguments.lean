import TableMotion.Binary64.Text
import TableMotion.Table.Replay

/-!
# Arguments of a playback

The words of a command line: `--session` and `--config` come before the name of a command, and the
options of the command after it. An option takes its value from behind an equals sign or from the
next word, which then may not begin with a dash. No option may be given twice.
-/

namespace TableMotion

namespace Playback

/-- What to print. -/
inductive Command where
  /-- The tree or the value at a path, and the counters if asked for. -/
  | render (target : Extent) (path : Option String) (counters : Bool)
  /-- The value at a path at equal steps of time. -/
  | timeline (path : String) (start finish step : Binary64)
  /-- The transitions. -/
  | records (target : Extent)

/-- A command line that was understood. -/
structure Arguments where
  session : String
  config : Option String
  command : Command

/-- The options of a level: those that take a value and those that do not. -/
structure Options where
  valued : List String
  flags : List String

/-- The options that were given, with their values; a flag has none. -/
abbrev Given := List (String × Option String)

/-- Whether a word cannot be the value of an option that stands before it. -/
def isDashed (word : String) : Bool := word.toList.head? = some '-' && word ≠ "-"

/-- An option without its dashes: its name and the value behind an equals sign. -/
def splitOption (word : String) : String × Option String :=
  let cs := word.toList.drop 2
  let name := String.ofList (cs.takeWhile (· ≠ '='))
  match cs.dropWhile (· ≠ '=') with
  | [] => (name, none)
  | _ :: value => (name, some (String.ofList value))

/-- Adds an option, unless it was given already. -/
def addOption (given : Given) (name : String) (value : Option String) : Option Given :=
  if given.any (·.1 = name) then none else some (given ++ [(name, value)])

/-- Reads options up to the first word that is none; gives them and the words from there on. A lone
double dash ends the options. -/
def readOptions (options : Options) : List String → Given → Option (Given × List String)
  | [], given => some (given, [])
  | word :: rest, given =>
    if ¬ isDashed word then some (given, word :: rest)
    else if word = "--" then (if rest = [] then some (given, []) else none)
    else if word.toList.take 2 ≠ ['-', '-'] then none
    else
      match splitOption word with
      | (name, some value) =>
        if options.valued.contains name then
          (addOption given name (some value)).bind (readOptions options rest)
        else none
      | (name, none) =>
        if options.flags.contains name then
          (addOption given name none).bind (readOptions options rest)
        else if options.valued.contains name then
          match rest with
          | [] => none
          | value :: rest =>
            if isDashed value then none
            else (addOption given name (some value)).bind (readOptions options rest)
        else none

/-- The value of an option that was given. -/
def valueOf? (given : Given) (name : String) : Option String :=
  (given.find? (·.1 = name)).bind (·.2)

/-- Reads a value with a reader that may refuse it; an option that is not given is no error. -/
def readValue {α : Type} (given : Given) (name : String) (read : String → Option α) :
    Option (Option α) :=
  match valueOf? given name with
  | none => some none
  | some text => (read text).map some

/-- The name of a file: not empty. -/
def fileName? (text : String) : Option String := if text = "" then none else some text

/-- A natural number below `2 ^ 64`, with an optional plus sign. -/
def natural? (text : String) : Option Nat :=
  let digits := match text.toList with
    | '+' :: cs => cs
    | cs => cs
  let n := Nat.ofDigitChars 10 digits 0
  if digits ≠ [] ∧ digits.all Char.isDigit ∧ n < 0x10000000000000000 then some n else none

/-- How far to replay: to a number or to a time, not both. -/
def target? (given : Given) : Option Extent := do
  let seq ← readValue given "seq" natural?
  let time ← readValue given "time" Binary64.ofText?
  match seq, time with
  | some _, some _ => none
  | some limit, none => some (.sequence limit)
  | none, some limit => some (.time limit)
  | none, none => some .whole

/-- Reads the options of a command, and nothing after them. -/
def commandOptions (valued flags : List String) (words : List String) : Option Given :=
  match readOptions ⟨valued, flags⟩ words [] with
  | some (given, []) => some given
  | _ => none

/-- Reads a command. -/
def command? (name : String) (words : List String) : Option Command :=
  match name with
  | "render" => do
    let given ← commandOptions ["seq", "time", "path"] ["metrics"] words
    some (.render (← target? given) (valueOf? given "path") (given.any (·.1 = "metrics")))
  | "timeline" => do
    let given ← commandOptions ["path", "from", "to", "step"] [] words
    let path ← valueOf? given "path"
    let start ← readValue given "from" Binary64.ofText?
    let finish ← (← readValue given "to" Binary64.ofText?)
    let step ← readValue given "step" Binary64.ofText?
    some (.timeline path (start.getD 0) finish (step.getD 100))
  | "records" => do
    let given ← commandOptions ["seq", "time"] [] words
    some (.records (← target? given))
  | _ => none

/-- Reads a command line. -/
def arguments? (words : List String) : Option Arguments := do
  let (given, rest) ← readOptions ⟨["session", "config"], []⟩ words []
  let session ← (← readValue given "session" fileName?)
  let config ← readValue given "config" fileName?
  match rest with
  | [] => none
  | name :: words => some ⟨session, config, ← command? name words⟩

end Playback

end TableMotion
