import Adequacy.Arguments
import Adequacy.FileTree
import Adequacy.JsonReader

namespace Adequacy

/-- The defaults of a project. What the command line says counts more. -/
structure Settings where
  /- The function whose calls are left alone. -/
  assertion : Option String := none
  node : Option String := none
  strict : Bool := false
  verifySyntax : Bool := false
  deriving DecidableEq, Repr

namespace Settings

def fileName : String := "adequacy.json"

def fields : List String := ["assertionFunction", "node", "strict", "verifySyntax"]

def setField (i : Nat) (s : Settings) : JsonReader Settings := do
  match i with
  | 0 => return { s with assertion := ← JsonReader.optional JsonReader.string }
  | 1 => return { s with node := ← JsonReader.optional JsonReader.string }
  | 2 => return { s with strict := ← JsonReader.bool }
  | _ => return { s with verifySyntax := ← JsonReader.bool }

/-- Reads settings of which any may be absent. -/
def reader : JsonReader Settings :=
  JsonReader.record "struct AdequacyConfig" fields true setField {}

/-- The settings in a text, or what is wrong with it. -/
def read (text : String) : Except String Settings :=
  (JsonReader.readAll reader text).mapError (·.message text)

/-- The settings kept in a directory, and the warning if they cannot be read. They are then the same
as if there were none. -/
def load (files : FileTree) (directory : String) : Settings × Option String :=
  let path := Path.join directory fileName
  if !files.isPresent path then ({}, none)
  else
    let outcome := do
      read (← (files.readText path).mapError FileFault.message)
    match outcome with
    | .ok s => (s, none)
    | .error m => ({}, some s!"Warning: Failed to parse {path}: {m}")

def mutationOptions (s : Settings) (a : MutateArguments) : MutationOptions :=
  let defaults : MutationOptions := {}
  { assertion := ((a.assertion <|> s.assertion).getD defaults.assertion)
    detail := a.detail
    strict := a.strict || s.strict
    verifySyntax := a.verify || s.verifySyntax }

def nodePath? (s : Settings) (a : CoverageArguments) : Option String := a.node <|> s.node

end Settings

end Adequacy
