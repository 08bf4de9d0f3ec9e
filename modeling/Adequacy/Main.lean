import Adequacy.Run

namespace Adequacy

def UsageFault.message : UsageFault → String
  | .unknownArgument => "unexpected argument"
  | .invalidValue => "an option has no value that it can have"
  | .invalidSubcommand => "unrecognized subcommand"
  | .missingSubcommand => "a subcommand is required"
  | .missingFile => "a file is required"
  | .repeated => "an option is given twice"
  | .valueForFlag => "a flag has a value"
  | .help | .nothingGiven =>
    "usage: js-adequacy [--workspace DIR] [--output human|json] (coverage FILE | mutate FILE...)"
  | .version => "js-adequacy"

/-- The entry at a path, if there is one that can be read. -/
def readEntry (path : String) : IO (Option FileEntry) := do
  try
    return some (.file (← IO.FS.readBinFile path) 0o755)
  catch
    | .inappropriateType _ 21 _ => return some .directory
    | _ => return none

/-- Adds what is found at the given paths. -/
def observe (files : FileTree) (paths : List String) : IO FileTree :=
  paths.foldlM
    (fun files path => do
      match ← readEntry path with
      | some e => return files.put (Path.names path) e
      | none => return files)
    files

def currentEnvironment : IO Environment := do
  let setting (name : String) : IO String := return (← IO.getEnv name).getD ""
  return {
    files := ⟨[]⟩
    directory := (← IO.currentDir).toString
    home := ← setting "HOME"
    searchPath := ← setting "PATH"
    nodeBinary := ← IO.getEnv "NODE_BINARY"
    cacheHome := ← setting "XDG_CACHE_HOME" }

/-- Runs what the command line asks for on the files at hand. No program is started from here: a
coverage run says so in its report. -/
def runArguments (a : Arguments) : IO UInt32 := do
  let env ← currentEnvironment
  let workspace := Path.join env.directory a.workspace
  let files ← observe ⟨[]⟩ [Path.join workspace Settings.fileName]
  let settings := (Settings.load files workspace).1
  let files ← observe files (env.lookups workspace settings a.command)
  let launch (_ : String) : Except NodeError NodeProcess :=
    .error (.spawnFailed "Operation not supported (os error 95)")
  let result := { env with files }.run launch a
  result.warnings.forM IO.eprintln
  result.output.forM IO.println
  match result.outcome with
  | .ok summary => return if 0 < summary.failedCount then 1 else 0
  | .error fault =>
    IO.eprintln s!"Error: {fault.message}"
    return 1

end Adequacy

def main (words : List String) : IO UInt32 := do
  match Adequacy.Arguments.parse words with
  | .ok a => Adequacy.runArguments a
  | .error .help =>
    IO.println Adequacy.UsageFault.help.message
    return 0
  | .error .version =>
    IO.println Adequacy.UsageFault.version.message
    return 0
  | .error fault =>
    IO.eprintln s!"error: {fault.message}"
    return 2
