import Adequacy.Report

namespace Adequacy

structure CoverageArguments where
  file : String
  /- A file with a list of argument lists. -/
  inputs : Option String
  detail : Bool
  showInstrumented : Bool
  node : Option String
  deriving DecidableEq, Repr

structure MutateArguments where
  files : List String
  detail : Bool
  assertion : Option String
  strict : Bool
  verify : Bool
  deriving DecidableEq, Repr

inductive Command where
  | coverage (arguments : CoverageArguments)
  | mutate (arguments : MutateArguments)
  deriving DecidableEq, Repr

/-- What a command line asks for. -/
structure Arguments where
  workspace : String
  output : OutputFormat
  command : Command
  deriving DecidableEq, Repr

/-- Why a command line asks for no run. -/
inductive UsageFault where
  | unknownArgument
  /- An option has a value that it cannot have, or none. -/
  | invalidValue
  | invalidSubcommand
  | missingSubcommand
  | missingFile
  /- An option or a flag is given twice. -/
  | repeated
  /- A flag has a value. -/
  | valueForFlag
  | help
  | version
  | nothingGiven
  deriving DecidableEq, Repr

/-- The words that may stand on one level of a command line. -/
structure CommandForm where
  /- Names of options with a value. -/
  options : List String
  /- Names of options without one. -/
  flags : List String
  hasVersion : Bool
  subcommands : List String
  /- How many words may stand for themselves, if there is a bound. -/
  maxOperands : Option Nat

namespace CommandForm

def top : CommandForm := ⟨["workspace", "output"], [], true, ["coverage", "mutate", "help"], some 0⟩

def coverage : CommandForm :=
  ⟨["workspace", "output", "inputs", "node"], ["detail", "show-instrumented"], false, [], some 1⟩

def mutate : CommandForm :=
  ⟨["workspace", "output", "assert-fn"], ["detail", "strict", "verify"], false, [], none⟩

end CommandForm

namespace OutputFormat

def ofName? : String → Option OutputFormat
  | "human" => some .human
  | "json" => some .json
  | _ => none

end OutputFormat

/-- What has been read on one level of a command line. -/
structure Reading where
  values : List (String × String) := []
  flags : List String := []
  operands : List String := []
  /- The last option, and its value if that has been read. It is checked when the next word that
  stands for something else is met. -/
  pending : Option (String × Option String) := none

namespace Reading

def value? (r : Reading) (name : String) : Option String := r.values.lookup name

def store (r : Reading) (name value : String) : Except UsageFault Reading :=
  if (r.value? name).isSome then .error .repeated
  else if name = "output" ∧ OutputFormat.ofName? value = none then .error .invalidValue
  else .ok { r with values := r.values ++ [(name, value)] }

/-- Checks the last option. -/
def settle (r : Reading) : Except UsageFault Reading :=
  match r.pending with
  | none => .ok r
  | some (_, none) => .error .invalidValue
  | some (name, some value) => { r with pending := none }.store name value

/-- Whether the next word has to be the value of an option. -/
def isAwaiting (r : Reading) : Bool :=
  match r.pending with
  | some (_, none) => true
  | _ => false

/-- The value that an option is waiting for. -/
def supply (r : Reading) (value : String) : Reading :=
  { r with pending := r.pending.map fun (name, _) => (name, some value) }

/-- A word behind two dashes, with what stands behind an equals sign in it. -/
def long (form : CommandForm) (r : Reading) (name : String) (value : Option String) :
    Except UsageFault Reading := do
  if form.options.contains name then
    let r ← r.settle
    match value with
    | some v => r.store name v
    | none => return { r with pending := some (name, none) }
  else if form.flags.contains name || name == "help" || (form.hasVersion && name == "version") then
    if value.isSome then throw .valueForFlag
    let r ← r.settle
    if name = "help" then throw .help
    if name = "version" then throw .version
    if r.flags.contains name then throw .repeated
    return { r with flags := name :: r.flags }
  else throw .unknownArgument

/-- Letters behind one dash. -/
def short (form : CommandForm) (r : Reading) (letters : List Char) : Except UsageFault Reading := do
  match letters.head? with
  | some 'h' => let _ ← r.settle; throw .help
  | some 'V' =>
    if form.hasVersion then
      let _ ← r.settle
      throw .version
    else throw .unknownArgument
  | _ => throw .unknownArgument

/-- A word that stands for itself. -/
def operand (form : CommandForm) (isTrailing : Bool) (r : Reading) (word : String) :
    Except UsageFault Reading := do
  if form.maxOperands.all (r.operands.length < ·) then
    let r ← r.settle
    return { r with operands := r.operands ++ [word] }
  else if form.subcommands.isEmpty || (isTrailing && form.subcommands.contains word) then
    throw .unknownArgument
  else throw .invalidSubcommand

/-- The name and the value of a word behind two dashes. -/
def splitValue (word : List Char) : String × Option String :=
  let name := word.takeWhile (· ≠ '=')
  let rest := word.dropWhile (· ≠ '=')
  (String.ofList name, if rest.isEmpty then none else some (String.ofList (rest.drop 1)))

/-- Reads the words of one level, up to a command and what follows it. Behind `--` every word stands
for itself. -/
def scan (form : CommandForm) :
    Bool → List String → Reading → Except UsageFault (Reading × Option (String × List String))
  | _, [], r => .ok (r, none)
  | isTrailing, word :: rest, r => do
    if isTrailing then scan form true rest (← r.operand form true word)
    else if !r.isAwaiting && form.subcommands.contains word then return (r, some (word, rest))
    else
      match word.toList with
      | ['-', '-'] => scan form true rest r
      | '-' :: '-' :: body =>
        let (name, value) := splitValue body
        scan form false rest (← r.long form name value)
      | '-' :: c :: cs => scan form false rest (← r.short form (c :: cs))
      | _ =>
        if r.isAwaiting then scan form false rest (r.supply word)
        else scan form false rest (← r.operand form false word)

/-- Reads all words of a command. -/
def ofWords (form : CommandForm) (words : List String) : Except UsageFault Reading := do
  let (r, _) ← scan form false words {}
  r.settle

end Reading

namespace Command

def ofReading (name : String) (r : Reading) : Except UsageFault Command :=
  match name, r.operands with
  | _, [] => .error .missingFile
  | "coverage", file :: _ =>
    .ok <| .coverage
      { file
        inputs := r.value? "inputs"
        detail := r.flags.contains "detail"
        showInstrumented := r.flags.contains "show-instrumented"
        node := r.value? "node" }
  | _, files =>
    .ok <| .mutate
      { files
        detail := r.flags.contains "detail"
        assertion := r.value? "assert-fn"
        strict := r.flags.contains "strict"
        verify := r.flags.contains "verify" }

end Command

namespace Arguments

/-- Help on a command, or on all. -/
def helpOn : List String → UsageFault
  | [] => .help
  | [name] => if CommandForm.top.subcommands.contains name then .help else .invalidSubcommand
  | _ => .invalidSubcommand

/-- Reads a command line without the name of the program. The options for all commands count more
behind the command than before it. -/
def parse (words : List String) : Except UsageFault Arguments := do
  let (top, found) ← Reading.scan .top false words {}
  match found with
  | none =>
    let top ← top.settle
    throw (if top.values.isEmpty then .nothingGiven else .missingSubcommand)
  | some ("help", rest) => throw (helpOn rest)
  | some (name, rest) =>
    let r ← Reading.ofWords (if name = "coverage" then .coverage else .mutate) rest
    let command ← Command.ofReading name r
    let top ← top.settle
    let value? (name : String) : Option String := r.value? name <|> top.value? name
    return {
      workspace := (value? "workspace").getD "."
      output := ((value? "output").bind OutputFormat.ofName?).getD .human
      command }

end Arguments

end Adequacy
