import Adequacy.Diagnostic
import Adequacy.Mutant
import Adequacy.Mutation

namespace Adequacy

structure MutationOptions where
  /- Calls of this function are left alone. -/
  assertion : String := "__assert__"
  /- Whether every mutant is shown as it is made. -/
  detail : Bool := false
  /- Whether a broken invariant ends the generation. -/
  strict : Bool := false
  /- Whether every mutant is parsed. -/
  verifySyntax : Bool := false
  deriving DecidableEq, Repr

/-- Why there are no mutants of a text. -/
inductive GenerationError where
  | parse (error : SyntaxError)
  /- The mutants that had been made are given up. -/
  | invariant (message : String) (made : List Mutant)
  deriving DecidableEq, Repr

def GenerationError.message (source : String) : GenerationError → String
  | parse e => e.display source
  | invariant message _ => "mutation was not reverted: " ++ message

/-- A text that mutations are made in one at a time, and what came of them. -/
structure Workbench where
  source : String
  working : String
  mutants : List Mutant
  diagnostics : List Diagnostic

namespace Workbench

def ofSource (source : String) : Workbench := ⟨source, source, [], []⟩

def report (w : Workbench) (d : Diagnostic) : Workbench :=
  { w with diagnostics := w.diagnostics ++ [d] }

/-- Keeps the text that a mutation led to, unless nothing changed. -/
def capture (w : Workbench) (m : Mutation) (text : String) : Workbench :=
  if text = w.source then w
  else
    let stop := (m.node.stop + m.patch.delta).toNat
    let mutant : Mutant :=
      { id := w.mutants.length + 1
        kind := m.kind
        program := text
        source := w.source
        location := (LineIndex.ofText w.source).clamped m.node
        fragment := (slice? text m.node.start stop).getD "" }
    { w with mutants := w.mutants ++ [mutant] }

def failure (m : Mutation) (verb : String) (e : PatchError) : Diagnostic :=
  ⟨.invariantViolation, s!"could not {verb} {m.kind.name} mutation: {e.message}", some m.node⟩

/-- Makes a mutation, keeps the mutant, and takes the mutation back. -/
def perform (w : Workbench) (m : Mutation) : Workbench :=
  match m.patch.apply w.working with
  | .error e => w.report (failure m "apply" e)
  | .ok (text, inverse) =>
    let w := match inverse.apply text with
      | .ok (back, _) => { w with working := back }
      | .error e => { w with working := w.source }.report (failure m "revert" e)
    w.capture m text

def performAll (w : Workbench) (ms : List Mutation) : Workbench := ms.foldl perform w

end Workbench

/-- The mutants of a program, and the remarks on their making. -/
structure Generation where
  mutants : List Mutant
  diagnostics : List Diagnostic

namespace Generation

/-- Notes a working text that is not what it was. -/
def finish (w : Workbench) : List Diagnostic :=
  if w.working = w.source then w.diagnostics
  else
    w.diagnostics ++
      [⟨.invariantViolation, "program text differs from the original after generation", none⟩]

/-- The remark on a mutant that is no program. -/
def invalid? (m : Mutant) : Option Diagnostic :=
  match Program.parse m.program with
  | .ok _ => none
  | .error e =>
    some ⟨.invalidMutant,
      s!"mutant #{m.id} ({m.kind.name}) does not parse: {e.display m.program}", none⟩

/-- All mutants of a text. -/
def ofSource (options : MutationOptions) (source : String) : Except GenerationError Generation := do
  let program ← (Program.parse source).mapError .parse
  let w := (Workbench.ofSource source).performAll (Mutation.ofProgram options.assertion program)
  let diagnostics := finish w
  if options.strict then
    if let some d := diagnostics.find? (·.code = .invariantViolation) then
      throw (.invariant d.message w.mutants)
  let invalid := if options.verifySyntax then w.mutants.filterMap invalid? else []
  return ⟨w.mutants, diagnostics ++ invalid⟩

/-- The mutants that are shown while they are made. -/
def echo (options : MutationOptions) (result : Except GenerationError Generation) : List String :=
  let made := match result with
    | .ok g => g.mutants
    | .error (.invariant _ made) => made
    | .error (.parse _) => []
  if options.detail then made.map Mutant.display else []

end Generation

end Adequacy
