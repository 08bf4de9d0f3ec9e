import Adequacy.StatementSyntax

namespace Adequacy

namespace Parser

/-- Code of a module, all of which is strict. -/
def ofModule {α : Type} (p : Parser α) : Parser α :=
  withReader (fun c => { c with strict := true, inModule := true }) p

/-- Marks the program as a module, which it is from the declaration on that is parsed. -/
def inNewModule {α : Type} (p : Parser α) : Parser α := do
  Moving.move (fun _ s => s.enterModule) fun _ s => (Progress.Step.enterModule s).leads
  ofModule p

/-- The name of an import or export, and whether it is quoted. -/
def moduleName : Parser (String × Span × Bool) := do
  let span := (← current).span
  match ← lexeme with
  | .string value _ =>
    advance
    return (value, span, true)
  | .word text =>
    advance
    return (text, span, false)
  | _ => unexpected "identifier or string"

/-- What a module is imported from, and the attributes behind it. -/
def moduleSource (rule : Productions) : Parser (List Node) := do
  match ← lexeme with
  | .string .. => advance
  | _ => unexpected "a string literal"
  if !(← afterNewline) && ((← atWord "with") || (← atWord "assert")) then
    advance
    return [← objectLiteral rule]
  else return []

/-- The module behind `from`, and the end of the statement. -/
def fromClause (rule : Productions) : Parser (List Node) := do
  expectWord "from"
  let attributes ← moduleSource rule
  expectStatementEnd
  return attributes

/-- Names between braces with commas between them. -/
def braced {α : Type} (item : Parser α) : Parser (List α) := do
  expect "\x7b"
  let read ← collect do
    if ← at? "\x7d" then return none
    let a ← item
    if !(← at? "\x7d") then expect ","
    return some a
  expect "\x7d"
  return read

def importedName : Parser Unit := do
  let (text, span, isQuoted) ← moduleName
  if ← eatWord "as" then
    let _ ← boundName false
  else if isQuoted then fail (.stringImport text) span

/-- What is imported besides a default, if anything is. -/
def importedNames : Parser Unit := do
  if ← eat "*" then
    expectWord "as"
    let _ ← boundName false
  else if ← at? "\x7b" then discard (braced importedName)

/-- The name a default is imported by, and what is imported besides. The words `source` and `defer`
may stand in front of what is imported; then only a default or a namespace is. -/
def importedDefault : Parser Unit := do
  let n ← boundName false
  let hasPhase ← if ← at? "," then pure false
    else match (← ahead).lexeme with
      | .string .. => pure false
      | _ => pure true
  match n with
  | .name _ "defer" => if hasPhase then return ← importedNames
  | .name _ "source" => if hasPhase then discard (boundName false)
  | _ => pure ()
  if !(← atWord "from") then expect ","
  importedNames

/-- The names that are imported, if any are, and the module they are imported from. -/
def importClause (rule : Productions) : Parser (List Node) := do
  if (← lexeme) matches .string .. then
    let attributes ← moduleSource rule
    let _ ← endStatement
    return attributes
  else
    if ← atReference then importedDefault else importedNames
    fromClause rule

def importDeclaration (rule : Productions) : Parser Node := do
  let start ← start
  advance
  let attributes ← importClause rule
  return .other (← spanFrom start) .importDeclaration attributes

/-- A name of an export. For one that no binding here can have, as it is quoted or reserved, the
fault is given that it is unless the export is from another module. -/
def exportedName : Parser (Option SyntaxError) := do
  let (text, span, isQuoted) ← moduleName
  if ← eatWord "as" then
    let _ ← moduleName
  return if isQuoted then some ⟨.stringExport, span⟩
    else if text = "package" ∨ text ∈ Scan.keywords then some ⟨.reservedExport text, span⟩
    else none

def exportDefault (rule : Productions) : Parser Node := do
  if ← atWord "class" then classFrom rule true false
  else if (← atWord "function") || (← atAsyncFunction) then function rule true false
  else
    let e ← assignment rule
    expectStatementEnd
    return e

/-- The names that are exported, from another module or of bindings here. -/
def exportedNames (rule : Productions) : Parser (List Node) := do
  let unbound := (← braced exportedName).filterMap id
  if ← atWord "from" then fromClause rule
  else
    for error in unbound do note error.fault error.span
    let _ ← endStatement
    return []

/-- What is exported. A declaration behind a star is read as one without it. -/
def exportedParts (rule : Productions) (isAll : Bool) : Parser (List Node) := do
  if ← eatWord "default" then return [← exportDefault rule]
  else if ← atWord "class" then return [← classFrom rule true true]
  else if (← atWord "function") || (← atAsyncFunction) then return [← function rule true true]
  else match ← variableWord? with
    | some word => return [← variableDeclaration rule word false]
    | none => if isAll then fromClause rule else exportedNames rule

/-- What is exported, behind a star if all of a module is. -/
def exportClause (rule : Productions) : Parser (List Node) := do
  if ← atEnd then failHere .unexpectedEnd
  if ← eat "*" then
    if ← eatWord "as" then
      let _ ← moduleName
      fromClause rule
    else if ← atWord "from" then fromClause rule
    else exportedParts rule true
  else exportedParts rule false

def exportDeclaration (rule : Productions) : Parser Node := do
  let start ← start
  advance
  let parts ← exportClause rule
  return .other (← spanFrom start) .exportDeclaration parts

/-- A statement that begins with an expression of `import`. Its end need not be marked. -/
def importStatement (rule : Productions) : Parser Node := do
  let start ← start
  let e ← expression rule
  let _ ← endStatement
  return .other (← spanFrom start) .expressionStatement [e]

/-- A statement, or an import or export where those may stand. -/
def statementOrItem (rule : Productions) (withDeclarations : Bool) : Parser Node := do
  if ← atWord "import" then
    let next := (← ahead).lexeme
    if next == .punctuator "(" || next == .punctuator "." then importStatement rule
    else if withDeclarations && (← read).topLevel then inNewModule (importDeclaration rule)
    else failHere .moduleItemInside
  else if ← atWord "export" then
    if withDeclarations && (← read).topLevel then inNewModule (exportDeclaration rule)
    else failHere .moduleItemInside
  else statement rule withDeclarations

/-- The items of a program up to its end. All of them behind an import or export are strict. -/
def items (rule : Productions) : Parser (List Node) := do
  let makesStrict := isStrictDirective (← lexeme)
  withReader (fun c => { c with topLevel := true, strict := makesStrict }) <| collect do
    if ← atEnd then return none
    let item := rule (.statement true)
    some <$> if (← get).scanner.inModule then ofModule item else item

/-- How every goal is parsed, to a depth that no text of the given length exceeds. -/
def rules : Nat → Productions
  | 0, _ => failHere .expectedExpression
  | depth + 1, goal =>
    let rule := rules depth
    match goal with
    | .assignment => assignmentExpression rule
    | .unary => unaryExpression rule
    | .operators left above => operators rule left above
    | .leftHandSide => leftHandSide rule
    | .newCallee => newCallee rule
    | .bindingTarget isLexical => bindingTarget rule isLexical
    | .statement withDeclarations => statementOrItem rule withDeclarations

end Parser

/-- A parsed program. The spans of its items refer to the text without a byte order mark. -/
structure Program where
  source : String
  isModule : Bool
  items : List Node

namespace Program

/-- The text that is parsed, which is without a byte order mark. -/
def bareText (source : String) : List Char :=
  match source.toList with
  | '\ufeff' :: rest => rest
  | cs => cs

/-- The progress in front of a text. -/
def begin (text : List Char) : Progress :=
  { current := ⟨.eof, .point 0, false⟩, scanner := Scanner.ofText (String.ofList text),
    last := .point 0, isModule := false, arrowStart := none, trailingCommas := [], strictMarks := [] }

/-- The items of a program, to a depth that a text of the given length cannot exceed. -/
def parser (length : Nat) : Parser (List Node) := do
  Parser.advance
  Parser.items (Parser.rules (8 * (length + 2)))

/-- The program that a text is, or its first fault. Faults that leave the structure clear count
as well, unless one that does not comes after them. -/
def parse (source : String) : Except SyntaxError Program :=
  let text := bareText source
  match (parser text.length).run {} (begin text) with
  | (.error e, _) => .error e
  | (.ok items, s) =>
    match s.scanner.faults ++ (if s.isModule then s.scanner.moduleFaults else []) with
    | e :: _ => .error e
    | [] => .ok ⟨source, s.isModule, items⟩

end Program

end Adequacy
