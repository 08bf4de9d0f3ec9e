import Adequacy.Blank
import Adequacy.Diagnostic
import Adequacy.Execution
import Adequacy.Instrumentation

namespace Adequacy

/-- How the invocations made so far ended. -/
structure InvocationStats where
  completed : Nat := 0
  threw : Nat := 0
  /- Those that could not be carried out. -/
  failed : Nat := 0
  deriving DecidableEq, Repr

def InvocationStats.invocations (s : InvocationStats) : Nat := s.completed + s.threw + s.failed

/-- What has been covered of one program. `σ` is what its instrumented text is compiled to. -/
structure Coverage (σ : Type) where
  source : String
  instrumented : String
  func : CoverSet
  stmt : CoverSet
  branch : CoverSet
  executable : Option σ := none
  stats : InvocationStats := {}
  diagnostics : List Diagnostic := []

namespace Invocation

/-- The ids of one category. -/
def ids (i : Invocation) : Category → List Nat
  | .func => i.func
  | .stmt => i.stmt
  | .branch => i.branch

end Invocation

namespace Coverage

variable {σ : Type}

/-- The coverage of a program that has not been compiled. `none` if a probe would fall inside a
character. -/
def ofProgram? (p : Program) : Option (Coverage σ) :=
  p.instrument?.map fun i =>
    { source := p.source
      instrumented := i.program
      func := .ofTarget i.func
      stmt := .ofTarget i.stmt
      branch := .ofTarget i.branch }

def get (c : Coverage σ) : Category → CoverSet
  | .func => c.func
  | .stmt => c.stmt
  | .branch => c.branch

def note (c : Coverage σ) (d : Diagnostic) : Coverage σ :=
  { c with diagnostics := c.diagnostics ++ [d] }

def isRunnable (c : Coverage σ) : Bool := c.executable.isSome

/-- Compiles the instrumented program. What has been covered stays; after a failure there is
nothing to run. -/
def compile (c : Coverage σ) (compiler : String → Except ExecutionError σ) : Coverage σ :=
  match compiler c.instrumented with
  | .ok executable => { c with executable := some executable }
  | .error e =>
    { c with executable := none }.note
      ⟨.unrunnableProgram, "the given code is not runnable with arguments: " ++ e.message, none⟩

def unknownProbe (category : Category) (id : Nat) : Diagnostic :=
  ⟨.unknownProbe, s!"executor reported unknown {category.name} id {id}", none⟩

/-- The remarks on the reported ids that no target has, by category. -/
def unknownProbes (c : Coverage σ) (i : Invocation) : List Diagnostic :=
  Category.all.flatMap fun category =>
    ((c.get category).unknown (i.ids category)).map (unknownProbe category)

/-- Takes in what an invocation reported, which counts also if it threw. -/
def record (c : Coverage σ) (i : Invocation) : Coverage σ :=
  { c with
    func := c.func.addAll i.func
    stmt := c.stmt.addAll i.stmt
    branch := c.branch.addAll i.branch
    stats :=
      if i.threw.isSome then { c.stats with threw := c.stats.threw + 1 }
      else { c.stats with completed := c.stats.completed + 1 }
    diagnostics := c.diagnostics ++ c.unknownProbes i }

/-- Counts an invocation that was not carried out. -/
def fail (c : Coverage σ) (e : ExecutionError) : Coverage σ :=
  let stats := { c.stats with failed := c.stats.failed + 1 }
  { c with stats }.note
    ⟨.executorFailure, s!"invocation {stats.invocations} failed: {e.message}", none⟩

/-- Calls the program once. Without a compiled program that is only remarked on. -/
def runSingle [Executable σ] (c : Coverage σ) (arguments : List Json) : Coverage σ :=
  match c.executable with
  | none =>
    c.note ⟨.unrunnableProgram, "the given code is not runnable with arguments", none⟩
  | some executable =>
    let (outcome, executable) := Executable.invoke arguments executable
    let c := { c with executable := some executable }
    match outcome with
    | .ok i => c.record i
    | .error e => c.fail e

/-- Calls the program once for each list of arguments. -/
def run [Executable σ] (c : Coverage σ) (inputs : List (List Json)) : Coverage σ :=
  inputs.foldl runSingle c

/-- The part of the report on one category, which is empty if the category has no items. -/
def categoryReport? (c : Coverage σ) (withDetail : Bool) (category : Category) : Option String :=
  let s := c.get category
  if s.total = 0 then none
  else some s!"- {category.name}: {s.render withDetail (some c.source)}\n"

/-- The report on all categories. -/
def display (c : Coverage σ) (showInstrumented withDetail : Bool) : String :=
  trimEnd <|
    (if showInstrumented then s!"Instrumented: {c.instrumented}\n" else "") ++ "Coverage:\n" ++
      String.join (Category.all.filterMap (c.categoryReport? withDetail))

end Coverage

end Adequacy
