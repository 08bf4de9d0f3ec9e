import Adequacy.Lexeme
import Adequacy.Node

namespace Adequacy

/-- What surrounds the place that is being parsed. -/
structure Surroundings where
  strict : Bool := false
  /- Whether an import or export before has shown that the program is a module. -/
  inModule : Bool := false
  topLevel : Bool := false
  inAsync : Bool := false
  inGenerator : Bool := false
  inFunction : Bool := false
  inParameters : Bool := false
  inClass : Bool := false
  inField : Bool := false
  inStaticBlock : Bool := false
  inForHead : Bool := false
  inAwaitHead : Bool := false
  /- Whether `in` is an operator here. -/
  allowIn : Bool := false
  allowBreak : Bool := false
  allowContinue : Bool := false
  allowSuper : Bool := false
  allowNewTarget : Bool := false
  labels : List String := []

/-- The lexeme at hand and what is known from those before it. -/
structure Progress where
  current : Scanned
  scanner : Scanner
  /- The span of the lexeme before the current one. -/
  last : Span
  isModule : Bool
  /- Where an expression begins that may be the head of an arrow function. -/
  arrowStart : Option Nat
  /- The trailing commas of lists and objects, by the start of the literal. -/
  trailingCommas : List (Nat × Span)
  /- The starts of the string literals that make code strict where they stand in a prologue. -/
  strictMarks : List Nat

namespace Progress

/-- Goes on to the next lexeme. -/
def advance (s : Progress) (strict : Bool) : Progress :=
  let (next, scanner) := s.scanner.next strict
  { s with current := next, scanner := scanner, last := s.current.span }

def addFault (s : Progress) (e : SyntaxError) : Progress :=
  { s with scanner := s.scanner.addFault e }

def addStrict (s : Progress) (strict : Bool) (e : SyntaxError) : Progress :=
  { s with scanner := s.scanner.addStrict strict e }

/-- Marks the program as a module, which it is from the place on that is parsed. -/
def enterModule (s : Progress) : Progress :=
  { s with isModule := true, scanner := s.scanner.enterModule }

/-- Replaces the current lexeme, if it is one to be read again, by what the text from its start on
then is. -/
def rescan (s : Progress) (again : Rereading) : Progress :=
  match s.current.lexeme with
  | .punctuator text =>
    if text ∈ again.spellings then
      let scanner := { s.scanner with
        rest := text.toList ++ s.scanner.rest, pos := s.scanner.pos - text.utf8ByteSize }
      let (current, scanner) :=
        scanner.scanned s.current.span.start s.current.afterNewline again.reader
      { s with current := current, scanner := scanner }
    else s
  | _ => s

/-- What is known of the lexemes read is all that differs. The head of an arrow function is expected
here, or where it was. -/
structure SamePlace (s t : Progress) : Prop where
  current_eq : s.current = t.current
  scanner_eq : s.scanner = t.scanner
  last_eq : s.last = t.last
  arrowStart : ∀ start ∈ t.arrowStart, start ∈ s.arrowStart ∨ start = s.current.span.start

/-- What may happen to the progress at once. -/
inductive Step : Progress → Progress → Prop where
  | advance (s : Progress) (strict : Bool) : Step s (s.advance strict)
  | addFault (s : Progress) (e : SyntaxError) : Step s (s.addFault e)
  | addStrict (s : Progress) (strict : Bool) (e : SyntaxError) : Step s (s.addStrict strict e)
  | enterModule (s : Progress) : Step s s.enterModule
  | rescan (s : Progress) (again : Rereading) : Step s (s.rescan again)
  | remember {s t : Progress} (h : SamePlace s t) : Step s t

/-- One progress leads to another by steps. -/
inductive Leads (s : Progress) : Progress → Prop where
  | refl : Leads s s
  | step {t u : Progress} : Leads s t → Step t u → Leads s u

theorem Leads.trans {s t u : Progress} (h : Leads s t) (h' : Leads t u) : Leads s u := by
  induction h' with
  | refl => exact h
  | step _ hs ih => exact ih.step hs

theorem Step.leads {s t : Progress} (h : Step s t) : Leads s t := Leads.refl.step h

instance : Motion Progress := ⟨Leads, fun _ => .refl, Leads.trans⟩

end Progress

/-- Parses from the current lexeme on. Faults that leave the structure clear are only recorded. -/
abbrev Parser (α : Type) := Moving Surroundings SyntaxError Progress α

namespace Lexeme

/-- Words that messages spell out. Other names are shown as `ident`. -/
def namedWords : List String :=
  Scan.keywords ++
    ["let", "await", "yield", "async", "of", "abstract", "any", "as", "asserts", "assert", "bigint",
     "boolean", "constructor", "declare", "from", "get", "global", "implements", "interface",
     "intrinsic", "is", "keyof", "module", "namespace", "never", "number", "object", "out",
     "override", "package", "private", "protected", "public", "readonly", "require", "set",
     "static", "string", "symbol", "type", "undefined", "unique", "unknown", "using", "accessor",
     "infer", "satisfies", "meta", "target"]

/-- A lexeme as messages name it. -/
def display : Lexeme → String
  | punctuator text => text
  | word text => if text ∈ namedWords then text else "ident"
  | string .. => "string literal"
  | number => "numeric literal"
  | bigInt => "bigint literal"
  | templateText .. => "template literal"
  | regex _ => "regexp literal"
  | bad _ => "<lexing error>"
  | eof => "<eof>"

/-- The operators between two operands. -/
def binaryOps : List String :=
  ["==", "!=", "===", "!==", "<", "<=", ">", ">=", "<<", ">>", ">>>", "+", "-", "*", "/", "%",
   "|", "^", "&", "**", "&&", "||", "??"]

def isBinaryOp : Lexeme → Bool
  | punctuator text => text ∈ binaryOps
  | _ => false

end Lexeme

namespace Parser

variable {α : Type}

def get : Parser Progress := Moving.state

def current : Parser Scanned := do return (← get).current

def lexeme : Parser Lexeme := do return (← get).current.lexeme

def start : Parser Nat := do return (← get).current.span.start

/-- The span from an offset to the end of the last lexeme that was taken. -/
def spanFrom (start : Nat) : Parser Span := do return ⟨start, (← get).last.stop⟩

/-- Goes on to the next lexeme. -/
def advance : Parser Unit :=
  Moving.move (fun c s => s.advance c.strict) fun c s => (Progress.Step.advance s c.strict).leads

/-- The lexeme behind the current one. -/
def ahead : Parser Scanned := do
  return ((← get).scanner.next (← read).strict).1

def add (e : SyntaxError) : Parser Unit :=
  Moving.move (fun _ s => s.addFault e) fun _ s => (Progress.Step.addFault s e).leads

/-- Remembers something of what was read. -/
def remember (f : Progress → Progress) (h : ∀ s, Progress.SamePlace s (f s)) :
    Parser Unit :=
  Moving.move (fun _ s => f s) fun _ s => (Progress.Step.remember (h s)).leads

/-- Before another fault is reported, one that kept the current lexeme from being read is. -/
def flushBad : Parser Unit := do
  match ← lexeme with
  | .bad e => advance; add e
  | _ => pure ()

/-- Records a fault and goes on. -/
def note (fault : SyntaxFault) (span : Span) : Parser Unit := do
  flushBad
  add ⟨fault, span⟩

/-- Records a fault of strict code. In other code it counts if the program is a module. -/
def noteStrict (fault : SyntaxFault) (span : Span) : Parser Unit :=
  Moving.move (fun c s => s.addStrict c.strict ⟨fault, span⟩)
    fun c s => (Progress.Step.addStrict s c.strict _).leads

/-- Gives up. -/
def fail (fault : SyntaxFault) (span : Span) : Parser α := do
  flushBad
  throw ⟨fault, span⟩

/-- Gives up at the current lexeme. -/
def failHere (fault : SyntaxFault) : Parser α := do
  fail fault (← current).span

def unexpected (wanted : String) : Parser α := do
  failHere (.unexpectedToken (← lexeme).display wanted)

/-- Whether the current lexeme has a fixed spelling. -/
def at? (text : String) : Parser Bool := do
  return (← lexeme) == .punctuator text

def atWord (text : String) : Parser Bool := do
  return (← lexeme) == .word text

def atEnd : Parser Bool := do
  return (← lexeme) == .eof

def word? : Parser (Option String) := do
  match ← lexeme with
  | .word text => return some text
  | _ => return none

def eat (text : String) : Parser Bool := do
  if ← at? text then
    advance
    return true
  else
    return false

def eatWord (text : String) : Parser Bool := do
  if ← atWord text then
    advance
    return true
  else
    return false

def expect (text : String) : Parser Unit := do
  if !(← eat text) then failHere (.expected text (← lexeme).display)

def expectWord (text : String) : Parser Unit := do
  if !(← eatWord text) then failHere (.expected text (← lexeme).display)

/-- Whether a line ends in front of the current lexeme. -/
def afterNewline : Parser Bool := do return (← current).afterNewline

/-- Whether a statement may end here without a semicolon being looked for. -/
def atStatementEnd : Parser Bool := do
  match ← lexeme with
  | .punctuator ";" | .punctuator "\x7d" | .eof => return true
  | _ => afterNewline

/-- Ends a statement with a semicolon, or where one is understood. -/
def endStatement : Parser Bool := do
  if ← eat ";" then return true
  else atStatementEnd

def expectStatementEnd : Parser Unit := do
  if !(← endStatement) then failHere (.expected ";" (← lexeme).display)

/-- A bound for loops that take a lexeme in every round. -/
def bound : Parser Nat := do return (← get).scanner.rest.length + 2

/-- Repeats a step until it says that it is done; every step takes a lexeme. -/
def collect (step : Parser (Option α)) : Parser (List α) := do
  go (← bound) []
where
  go : Nat → List α → Parser (List α)
    | 0, read => return read.reverse
    | fuel + 1, read => do
      match ← step with
      | some a => go fuel (a :: read)
      | none => return read.reverse

/-- Reads the current lexeme again with what follows it. -/
def rescan (again : Rereading) : Parser Unit :=
  Moving.move (fun _ s => s.rescan again) fun _ s => (Progress.Step.rescan s again).leads

def allowingIn (p : Parser α) : Parser α :=
  withReader (fun c => { c with allowIn := true }) p

/-- Inside something that is not a statement list of the program. -/
def inside (p : Parser α) : Parser α :=
  withReader (fun c => { c with topLevel := false }) p

end Parser

/-- Whether a word may not be used as a name. -/
def Surroundings.isReserved (c : Surroundings) (word : String) : Bool :=
  if word = "let" ∨ word = "static" then c.strict
  else if word = "await" then c.inAsync || c.inStaticBlock || c.inModule
  else if word = "yield" then c.inGenerator || c.strict
  else if word ∈ Scan.keywords then true
  else c.strict &&
    ["implements", "package", "protected", "interface", "private", "public"].contains word

namespace Parser

/-- Whether a name can stand here as an expression. -/
def atReference : Parser Bool := do
  match ← word? with
  | some w => return !(← read).isReserved w
  | none => return false

/-- Words that strict code keeps for the future. -/
def strictWords : List String :=
  ["implements", "interface", "let", "package", "private", "protected", "public", "static", "yield"]

/-- A name. `await` is one where it is not an operator; one that is bound may be `yield`. -/
def name (isBound : Bool) : Parser Node := do
  let place := (← current).span
  match ← word? with
  | none => failHere .expectedName
  | some w =>
    let c ← read
    if w ∈ Scan.keywords then failHere .expectedName
    if w = "await" then
      if c.inStaticBlock then failHere .expectedName
      if c.inAsync || c.inModule then failHere .awaitAsName
    if w = "yield" && c.inGenerator && !isBound then failHere .expectedName
    advance
    if w ∈ strictWords then noteStrict (.reservedInStrict w) place
    return .name place w

def isEvalOrArguments : Node → Bool
  | .name _ w => w = "eval" ∨ w = "arguments"
  | _ => false

/-- A name that is an operator here cannot be bound. -/
def checkBound (n : Node) : Parser Unit := do
  let c ← read
  match n with
  | .name place w =>
    if (c.inAsync || c.inStaticBlock) && w = "await" || c.inGenerator && w = "yield" then
      note .expectedName place
  | _ => pure ()

/-- A name that is bound here. -/
def boundName (isLexical : Bool) : Parser Node := do
  if isLexical then
    if ← atWord "let" then unexpected "let is reserved in const, let, class declaration"
  let n ← name true
  if isEvalOrArguments n then noteStrict .evalOrArguments n.span
  checkBound n
  return n

/-- Any word, reserved or not. -/
def anyWord : Parser (String × Span) := do
  let place := (← current).span
  match ← word? with
  | some w => advance; return (w, place)
  | none => failHere .expectedName

/-- A name as an expression. Of the words that strict code keeps for the future only `let` counts
here, as the others are no expressions in strict code. -/
def reference : Parser Node := do
  if ← atWord "let" then name false
  else
    let (w, place) ← anyWord
    if w = "arguments" && (← read).inField then note .argumentsInField place
    return .name place w

/-- A name behind `#`, which has to follow at once. -/
def privateName : Parser (String × Span) := do
  let start ← start
  expect "#"
  let hash ← spanFrom start
  if (← Parser.start) ≠ hash.stop then fail .spaceInPrivateName hash
  let (w, _) ← anyWord
  return (w, ← spanFrom start)

end Parser

/-- The productions that other productions refer back to. -/
inductive Goal where
  | assignment
  | unary
  | operators (left : Node) (above : Nat)
  | leftHandSide
  | newCallee
  | bindingTarget (isLexical : Bool)
  | statement (withDeclarations : Bool)

/-- A way to parse every goal. -/
abbrev Productions := Goal → Parser Node

end Adequacy
