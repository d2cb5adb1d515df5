import TableMotion.Playback

/-!
# Command line

Reads the files that a run may need, plays the recording back and ends with its status.
-/

/-- The contents of a file, if it can be read as text. -/
def readFile? (path : String) : IO (Option String) := do
  try
    return some (← IO.FS.readFile path)
  catch _ =>
    return none

def main (words : List String) : IO UInt32 := do
  let rulesPath ← IO.getEnv "ANIMATION_CONFIG_PATH"
  let named := match TableMotion.Playback.arguments? words with
    | none => []
    | some arguments => arguments.session :: (arguments.config.or rulesPath).toList
  let contents ← named.mapM readFile?
  let files := fun path => ((named.zip contents).find? (·.1 = path)).bind (·.2)
  let exit := TableMotion.Playback.run files rulesPath words
  (← IO.getStdout).putStr exit.output
  (← IO.getStderr).putStr exit.complaint
  return exit.status.toUInt32
