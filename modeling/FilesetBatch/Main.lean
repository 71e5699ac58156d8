import FilesetBatch.Command

/-!
# The program

Reads the file that it is given, `config.json` beside it if there is one, and the
environment, and leaves the rest to `Command.run`.
-/

namespace FilesetBatch

/-- The text of a file, if it can be read. -/
def readText (path : String) : IO (Option String) := do
  try
    return some (← IO.FS.readFile path)
  catch _ =>
    return none

/-- The variables that configure the program and have a value, each by its usual name. -/
def readNamedVariables : IO (List (String × String)) :=
  ["PREPROC_SERVER__HOST", "PREPROC_SERVER__PORT", "PREPROC_SERVER__MAX_BODY_BYTES",
    "PREPROC_DATABASE__CONNECTION_STRING", "PREPROC_DATABASE__MAX_CONNECTIONS",
    "PREPROC_STORE__BACKEND", "PREPROC_STORE__LOAD_SEED_DATA",
    "PREPROC_PREPROCESS__OPERATIONS"].filterMapM fun name => do
      return (← IO.getEnv name).map (name, ·)

/-- The variables of the environment, where the system lists them; else those that the program
knows. -/
def readVariables : IO (List (String × String)) := do
  match ← readText "/proc/self/environ" with
  | some text =>
    return (text.splitOn "\x00").map fun entry =>
      let name := entry.toList.takeWhile fun c => c ≠ '='
      (String.ofList name, String.ofList (entry.toList.drop (name.length + 1)))
  | none => readNamedVariables

/-- The configuration, if it can be put together. -/
def readConfig : IO (Option Config) := do
  let environment ← readVariables
  match ← readText "config.json" with
  | none => return Config.load? none environment
  | some text => return (Json.parse? text).bind fun file => Config.load? (some file) environment

end FilesetBatch

open FilesetBatch in
/-- Prepare the batch in the file that is named by the first argument. -/
def main (arguments : List String) : IO UInt32 := do
  let file ← arguments.head?.mapM fun path => do
    return (⟨path, ← readText path⟩ : Command.BatchFile)
  let ended := Command.run file (← readConfig)
  match ended with
  | .ok report => IO.eprintln report.summary
  | .error mishap =>
    IO.eprintln mishap.message
    for cause in mishap.causes do
      IO.eprintln ("  " ++ cause)
  IO.print (Command.printed ended)
  return Command.exitCode ended
