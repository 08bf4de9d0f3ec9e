import Adequacy.Catalog
import Adequacy.JsonReader
import Adequacy.SourceRange

namespace Adequacy

/-- A program that differs from another one at a single node. -/
structure Mutant where
  /- Counts from 1 in the order of generation. -/
  id : Nat
  kind : MutantKind
  program : String
  source : String
  /- The node in the source. -/
  location : SourceRange
  /- What the node became. -/
  fragment : String
  deriving DecidableEq, Repr

namespace Position

def toJson (p : Position) : Json :=
  .object [("index", .nat p.index), ("line", .nat p.line), ("column", .nat p.column)]

def fields : List String := ["index", "line", "column"]

def setField (i : Nat) (p : Position) : JsonReader Position := do
  let n ← JsonReader.natural 32 "u32"
  return match i with
    | 0 => { p with index := n }
    | 1 => { p with line := n }
    | _ => { p with column := n }

def reader : JsonReader Position :=
  JsonReader.record "struct SourcePosition" fields false setField default

end Position

namespace SourceRange

def toJson (r : SourceRange) : Json :=
  .object [("start", r.start.toJson), ("end", r.stop.toJson)]

def fields : List String := ["start", "end"]

def setField (i : Nat) (r : SourceRange) : JsonReader SourceRange := do
  let p ← Position.reader
  return match i with
    | 0 => { r with start := p }
    | _ => { r with stop := p }

def reader : JsonReader SourceRange :=
  JsonReader.record "struct Range" fields false setField default

end SourceRange

namespace Mutant

instance : Inhabited Mutant := ⟨⟨0, .cond, "", "", default, ""⟩⟩

def display (m : Mutant) : String :=
  s!"#{m.id} {m.kind.name} at {m.location.display}: {m.fragment}"

/-- The number of mutants of each kind that has any. -/
def summarize (ms : List Mutant) : List (MutantKind × Nat) :=
  (MutantKind.all.map fun k => (k, ms.countP (·.kind = k))).filter (0 < ·.2)

def toJson (m : Mutant) : Json :=
  .object
    [("id", .nat m.id), ("type", .string m.kind.name), ("mutated_program", .string m.program),
     ("original_program", .string m.source), ("location", m.location.toJson),
     ("mutated_fragment", .string m.fragment)]

def fields : List String :=
  ["id", "type", "mutated_program", "original_program", "location", "mutated_fragment"]

def kindNamed (name : String) : JsonReader MutantKind := do
  match MutantKind.ofName? name with
  | some kind => return kind
  | none => JsonReader.failMismatch (.unknownVariant name)

/-- A kind by its name, or as an object whose only member has that name and no value. -/
def kindReader : JsonReader MutantKind := do
  match ← JsonReader.start with
  | '\x7b' =>
    JsonReader.skip
    let kind ← kindNamed ((← JsonReader.key? true).getD "")
    match ← JsonReader.start with
    | 'n' => JsonReader.skip; JsonReader.literal "ull".toList
    | _ => JsonReader.mismatched "unit"
    match ← JsonReader.key? false with
    | none => return kind
    | some _ => JsonReader.failHere .expectedValue
  | _ => kindNamed (← JsonReader.string)

def setField (i : Nat) (m : Mutant) : JsonReader Mutant := do
  match i with
  | 0 => return { m with id := ← JsonReader.natural 64 "usize" }
  | 1 => return { m with kind := ← kindReader }
  | 2 => return { m with program := ← JsonReader.string }
  | 3 => return { m with source := ← JsonReader.string }
  | 4 => return { m with location := ← SourceRange.reader }
  | _ => return { m with fragment := ← JsonReader.string }

def reader : JsonReader Mutant :=
  JsonReader.record "struct Mutant" fields false setField default

/-- The text that a list of mutants is kept as. -/
def write (ms : List Mutant) : String := (Json.array (ms.map toJson)).compact

/-- The mutants that a text holds. -/
def read (text : String) : Except JsonError (List Mutant) :=
  JsonReader.readAll (JsonReader.list reader) text

end Mutant

end Adequacy
