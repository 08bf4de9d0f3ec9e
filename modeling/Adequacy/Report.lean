import Adequacy.Coverage
import Adequacy.Generation

namespace Adequacy

inductive OutputFormat where
  | human
  | json
  deriving DecidableEq, Repr

/-- What came of the mutation of one file. -/
inductive FileOutcome where
  | mutated (path source : String) (generation : Generation)
  /- The file could not be read, parsed or restored; the place is there if it is known. -/
  | failed (path message : String) (range : Option SourceRange)

/-- Numbers of a run. -/
structure RunSummary where
  fileCount : Nat := 0
  failedCount : Nat := 0
  mutantCount : Nat := 0
  deriving DecidableEq, Repr

namespace FileOutcome

/-- What came of the mutation of a text. -/
def ofResult (path source : String) : Except GenerationError Generation → FileOutcome
  | .ok g => .mutated path source g
  | .error (.parse e) =>
    .failed path e.message (some ((LineIndex.ofText source).clamped e.span))
  | .error e => .failed path (e.message source) none

def mutants : FileOutcome → List Mutant
  | mutated _ _ g => g.mutants
  | failed .. => []

def isFailed : FileOutcome → Bool
  | mutated .. => false
  | failed .. => true

end FileOutcome

/-- A number of things, in the singular if there is one. -/
def counted (n : Nat) (thing : String) : String :=
  s!"{n} {thing}" ++ if n = 1 then "" else "s"

namespace RunSummary

def ofOutcomes (outcomes : List FileOutcome) : RunSummary :=
  { fileCount := outcomes.length
    failedCount := outcomes.countP (·.isFailed)
    mutantCount := (outcomes.flatMap (·.mutants)).length }

def display (s : RunSummary) : String :=
  "====================================\njs-adequacy generated " ++
    counted s.mutantCount "mutant" ++ " in " ++ counted s.fileCount "file" ++
    if 0 < s.failedCount then s!" ({s.failedCount} failed)" else ""

end RunSummary

namespace Report

/-- The member with the range, which is left out if there is none. -/
def rangeMember (range : Option SourceRange) : List (String × Json) :=
  (range.map fun r => ("range", r.toJson)).toList

def severityName : Severity → String
  | .error => "Error"
  | .warning => "Warning"

def diagnostic (path source : String) (d : Diagnostic) : Json :=
  let range := d.span.bind fun s => (SourceRange.ofSpan? source s).toOption
  .object <|
    [("type", .string (severityName d.severity)), ("filename", .string path),
     ("code", .string d.code.display), ("message", .string d.message)] ++ rangeMember range

def coverSet (source : String) (s : CoverSet) : Json :=
  .object
    [("hit", .nat s.hit), ("total", .nat s.total), ("covered", .array (s.coveredIds.map .nat)),
     ("uncovered", .array <| s.uncovered.map fun (id, r) => .object
        [("id", .nat id), ("range", r.toJson), ("text", .string ((r.text? source).getD ""))])]

def invocations (s : InvocationStats) : Json :=
  .object [("completed", .nat s.completed), ("threw", .nat s.threw), ("failed", .nat s.failed)]

/-- The record of the coverage of one file. -/
def coverageValue {σ : Type} (path : String) (c : Coverage σ) (showInstrumented : Bool) : Json :=
  let instrumented :=
    if showInstrumented then [("instrumented", Json.string c.instrumented)] else []
  .object <|
    [("filename", .string path)] ++
    Category.all.map (fun k => (k.name, coverSet c.source (c.get k))) ++
    [("invocations", invocations c.stats)] ++ instrumented ++
    [("diagnostics", .array (c.diagnostics.map (diagnostic path c.source)))]

/-- The report on the coverage of one file. -/
def coverage {σ : Type} (format : OutputFormat) (path : String) (c : Coverage σ)
    (showInstrumented withDetail : Bool) : String :=
  match format with
  | .human =>
    path ++ "\n" ++ c.display showInstrumented withDetail ++
      String.join (c.diagnostics.map fun d => "\n" ++ d.display)
  | .json => (coverageValue path c showInstrumented).pretty 0

def failureValue (path message : String) (range : Option SourceRange) : Json :=
  .object <| [("filename", .string path), ("error", .string message)] ++ rangeMember range

/-- The report on a file that nothing could be done with. -/
def failure (format : OutputFormat) (path message : String) (range : Option SourceRange) : String :=
  match format with
  | .human =>
    path ++ (match range with
      | some r => ":" ++ r.start.display
      | none => "") ++ "\nError: " ++ message
  | .json => (failureValue path message range).pretty 0

def counts (ms : List Mutant) : Json :=
  .object ((Mutant.summarize ms).map fun (kind, n) => (kind.name, .nat n))

/-- The record of what came of one file. -/
def outcomeValue : FileOutcome → Json
  | .mutated path source g =>
    .object
      [("filename", .string path), ("counts", counts g.mutants),
       ("mutants", .array (g.mutants.map Mutant.toJson)),
       ("diagnostics", .array (g.diagnostics.map (diagnostic path source)))]
  | .failed path message range => failureValue path message range

/-- What came of one file: the numbers of mutants by kind, the mutants if details are wanted, and
all remarks. -/
def outcome (withDetail : Bool) : FileOutcome → String
  | .mutated path _ g =>
    path ++ ": " ++ counted g.mutants.length "mutant" ++
      String.join ((Mutant.summarize g.mutants).map fun (kind, n) => s!"\n  {kind.name}: {n}") ++
      String.join (if withDetail then g.mutants.map fun m => "\n" ++ m.display else []) ++
      String.join (g.diagnostics.map fun d => "\n" ++ d.display)
  | .failed path message range => failure .human path message range

/-- The report on the mutants of all files. -/
def mutations (format : OutputFormat) (outcomes : List FileOutcome) (withDetail : Bool) : String :=
  match format with
  | .human => "\n\n".intercalate (outcomes.map (outcome withDetail))
  | .json => (Json.array (outcomes.map outcomeValue)).sorted.pretty 0

end Report

end Adequacy
