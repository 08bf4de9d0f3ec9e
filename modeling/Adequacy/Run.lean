import Adequacy.NodeDiscovery
import Adequacy.NodeWorker
import Adequacy.Settings

namespace Adequacy

/-- What ends a run before there is a report. -/
inductive RunFault where
  | readFailed (path : String) (fault : FileFault)
  | invalidInputs (path message : String)
  | node (error : NodeError)
  /- A probe would fall inside a character. -/
  | splitCharacter
  deriving DecidableEq, Repr

def RunFault.message : RunFault → String
  | readFailed path fault => s!"failed to read {path}: {fault.message}"
  | invalidInputs path m => s!"invalid inputs file {path}: {m}"
  | node e => e.message
  | splitCharacter => "a probe would fall inside a character"

/-- How a run ended, and what it wrote line by line. -/
structure RunResult where
  outcome : Except RunFault RunSummary
  output : List String
  warnings : List String

/-- How the program at a path is started. -/
abbrev Launcher := String → Except NodeError NodeProcess

namespace Environment

def readSource (env : Environment) (path : String) : Except RunFault String :=
  (env.files.readText path).mapError (.readFailed path)

/-- Argument lists from a file, or none at all if no file is named. -/
def readInputs (env : Environment) : Option String → Except RunFault (List (List Json))
  | none => .ok []
  | some path => do
    let text ← env.readSource path
    let value := JsonReader.value true (JsonReader.maxDepth - 2)
    (JsonReader.readAll (JsonReader.list (JsonReader.list value)) text).mapError fun e =>
      .invalidInputs path (e.message text)

/-- Measures the coverage of one file. The answer is the report and the numbers. -/
def runCoverage (env : Environment) (launch : Launcher) (workspace : String) (settings : Settings)
    (format : OutputFormat) (a : CoverageArguments) : Except RunFault (String × RunSummary) := do
  let source ← env.readSource (Path.join workspace a.file)
  let inputs ← env.readInputs (a.inputs.map (Path.join workspace))
  match Program.parse source with
  | .error e =>
    let range := (LineIndex.ofText source).clamped e.span
    return (Report.failure format a.file e.message (some range), ⟨1, 1, 0⟩)
  | .ok program =>
    match Coverage.ofProgram? (σ := NodeWorker) program with
    | none => throw .splitCharacter
    | some c =>
      let path ← (env.discoverNode (settings.nodePath? a)).mapError .node
      let compiler (text : String) : Except ExecutionError NodeWorker :=
        (do NodeWorker.compile (← launch path) text).mapError NodeError.toExecutionError
      let c := (c.compile compiler).run inputs
      return (Report.coverage format a.file c a.showInstrumented a.detail, ⟨1, 0, 0⟩)

/-- Mutates one file, which is reported under its given name. The answer holds the mutants that are
shown on the way. -/
def mutateFile (env : Environment) (workspace : String) (options : MutationOptions) (file : String) :
    FileOutcome × List String :=
  match env.readSource (Path.join workspace file) with
  | .error fault => (.failed file fault.message none, [])
  | .ok source =>
    let result := Generation.ofSource options source
    (.ofResult file source result, Generation.echo options result)

/-- Mutates files in the order in which they are given. -/
def runMutate (env : Environment) (workspace : String) (settings : Settings) (format : OutputFormat)
    (a : MutateArguments) : RunResult :=
  let results := a.files.map (env.mutateFile workspace (settings.mutationOptions a))
  let outcomes := results.map (·.1)
  let summary := RunSummary.ofOutcomes outcomes
  { outcome := .ok summary
    output :=
      Report.mutations format outcomes a.detail ::
        (if format = .human then [summary.display] else [])
    warnings := results.flatMap (·.2) }

/-- The paths that a run may look at, apart from the settings. -/
def lookups (env : Environment) (workspace : String) (settings : Settings) : Command → List String
  | .mutate a => a.files.map (Path.join workspace)
  | .coverage a =>
    let node := match settings.nodePath? a with
      | some path => [Path.expandHome env.home path]
      | none => env.namedNodes ++ env.searchedNodes ++ env.managedNodes
    (a.file :: a.inputs.toList).map (Path.join workspace) ++ node.map (Path.join env.directory)

/-- Does what a command line asks for. -/
def run (env : Environment) (launch : Launcher) (a : Arguments) : RunResult :=
  let workspace := Path.join env.directory a.workspace
  let (settings, warning) := Settings.load env.files workspace
  let result : RunResult :=
    match a.command with
    | .coverage c =>
      match env.runCoverage launch workspace settings a.output c with
      | .ok (report, summary) => ⟨.ok summary, [report], []⟩
      | .error fault => ⟨.error fault, [], []⟩
    | .mutate m => env.runMutate workspace settings a.output m
  { result with warnings := warning.toList ++ result.warnings }

end Environment

end Adequacy
