import Adequacy.ExpressionSyntax

namespace Adequacy

namespace Parser

/-- An expression in parentheses, as conditions are written. -/
def parenthesized (rule : Productions) : Parser Node := do
  expect "("
  let e ← allowingIn (expression rule)
  expect ")"
  return e

/-- A statement that is part of another and is no declaration. -/
def substatement (rule : Productions) : Parser Node := inside (rule (.statement false))

/-- The body of a loop. -/
def loopBody (rule : Productions) : Parser Node :=
  withReader (fun c => { c with allowBreak := true, allowContinue := true }) (substatement rule)

/-- Whether the lexeme can be what `let` declares. -/
def Lexeme.isDeclared : Lexeme → Bool
  | .word text => !Scan.keywords.contains text
  | .punctuator text => text = "[" ∨ text = "\x7b"
  | _ => false

/-- The word that begins a declaration of variables, if it comes next. -/
def variableWord? : Parser (Option String) := do
  match ← word? with
  | some "let" => return if Lexeme.isDeclared (← ahead).lexeme then some "let" else none
  | some "var" => return some "var"
  | some "const" => return some "const"
  | _ => return none

/-- The value of a variable that is declared. In the head of a loop it may lack one. -/
def initializer? (rule : Productions) (word : String) (inHead : Bool) (start : Nat)
    (target : Node) : Parser (Option Node) := do
  if inHead && ((← atWord "in") || (← atWord "of")) then return none
  else if ← eat "=" then some <$> rule .assignment
  else
    if word = "const" ∧ !inHead then note .constWithoutInit (← spanFrom start)
    else if !target.isName then note .patternWithoutInit (← spanFrom start)
    return none

/-- One variable of a declaration. -/
def declarator (rule : Productions) (word : String) (inHead : Bool) : Parser Node := do
  let start ← start
  let target ← rule (.bindingTarget (word ≠ "var"))
  let init ← initializer? rule word inHead start target
  return .declarator (← spanFrom start) target init

/-- The variables of a declaration behind its word. -/
def declarators (rule : Productions) (word : String) (inHead : Bool) : Parser (List Node) := do
  go (← bound) []
where
  go : Nat → List Node → Parser (List Node)
    | 0, read => return read.reverse
    | fuel + 1, read => do
      if (← at? ";") || (← atEnd) then
        let last := (← get).last
        note .trailingComma (if read.isEmpty then .point last.stop else last)
        return read.reverse
      let d ← declarator rule word inHead
      if ← eat "," then go fuel (d :: read) else return (d :: read).reverse

/-- Skips to the end of a statement that did not end where it should. -/
def skipStatement : Nat → Parser Unit
  | 0 => pure ()
  | fuel + 1 => do
    if !(← endStatement) then
      advance
      match ← lexeme with
      | .bad _ => pure ()
      | _ => skipStatement fuel

/-- Ends a declaration, and skips what else stands in the statement. -/
def endDeclaration (rule : Productions) : Parser Unit := do
  if !(← endStatement) then
    note .expectedSemicolon (← current).span
    tryCatch (discard (expression rule)) fun _ => pure ()
    skipStatement (← bound)

def variableDeclaration (rule : Productions) (word : String) (inHead : Bool) : Parser Node := do
  let start ← start
  advance
  let parse := declarators rule word inHead
  let parts ← if word = "var" ∧ inHead then parse else allowingIn parse
  if !inHead then endDeclaration rule
  return .other (← spanFrom start) .variableDeclaration parts

/-- What the word `using` declares in a statement from an offset on, if a name follows it on the
same line. -/
def usingDeclaration? (rule : Productions) (start : Nat) : Parser (Option Node) := do
  let next ← ahead
  let c ← read
  let declares := match next.lexeme with
    | .word text => !c.isReserved text && !next.afterNewline
    | _ => false
  if declares then
    advance
    let parts ← declarators rule "var" false
    note .usingDisabled (← spanFrom start)
    endDeclaration rule
    return some (.other (← spanFrom start) .variableDeclaration parts)
  else return none

/-- A statement that begins with `await` and `using`. -/
def awaitUsing (rule : Productions) : Parser Node := do
  let start ← start
  advance
  match ← usingDeclaration? rule start with
  | some n => return n
  | none =>
    let operand ← awaitExpression rule
    let e ← allowingIn (rule (.operators operand 0))
    let _ ← endStatement
    return .other (← spanFrom start) .expressionStatement [e]

/-- The head of a `for` loop between its parentheses. The semicolon behind the test may be left out. -/
inductive LoopHead where
  | steps (init test step : Option Node)
  | each (isOf : Bool) (left right : Node)

/-- The test in the head of a loop with its semicolon. -/
def loopTest? (rule : Productions) : Parser (Option Node) := do
  if ← eat ";" then return none
  else
    let e ← allowingIn (expression rule)
    let _ ← eat ";"
    return some e

def stepsHead (rule : Productions) (init : Option Node) : Parser LoopHead := do
  let test ← loopTest? rule
  let step ← if ← at? ")" then pure none else some <$> allowingIn (expression rule)
  return .steps init test step

/-- The head of a loop over what is in or of something. -/
def eachHead (rule : Productions) (left : Node) : Parser LoopHead := do
  let isOf ← atWord "of"
  advance
  let right ← if isOf then assignment rule else allowingIn (expression rule)
  return .each isOf left right

/-- Only one variable may be looped over, and it has no value of its own. -/
def checkLoopVariables (parts : List Node) : Parser Unit := do
  match parts with
  | [.declarator _ target init] =>
    if init.isSome && ((← read).strict || (← atWord "of")) then
      note .initializerInHead target.span
  | _ =>
    for part in parts.drop 1 do
      if let .declarator _ target _ := part then note .tooManyBindings target.span

def loopHead (rule : Productions) : Parser LoopHead := do
  match ← variableWord? with
  | some word =>
    let vars ← variableDeclaration rule word true
    if (← atWord "of") || (← atWord "in") then
      checkLoopVariables vars.children
      eachHead rule vars
    else
      expect ";"
      stepsHead rule (some vars)
  | none =>
    if ← eat ";" then stepsHead rule none
    else
      let init ← withReader (fun c => { c with allowIn := false }) (expression rule)
      if (← atWord "of") || (← atWord "in") then eachHead rule (← assignmentTarget init)
      else
        expect ";"
        stepsHead rule (some init)

def forStatement (rule : Productions) : Parser Node := do
  let start ← start
  advance
  let await := (← current).span
  let isAwait ← eatWord "await"
  expect "("
  let head ← withReader (fun c => { c with inForHead := true, inAwaitHead := isAwait })
    (loopHead rule)
  expect ")"
  let body ← loopBody rule
  let span ← spanFrom start
  match head with
  | .steps init test step =>
    if isAwait then fail .awaitLoop await
    return .forLoop span init test step body
  | .each isOf left right =>
    if isAwait && !isOf then fail .awaitLoop await
    return .forEach span left right body

/-- A statement with a condition. An `else if` is not inside it. -/
def ifStatement (rule : Productions) : Parser Node := do
  let start ← start
  advance
  let test ← parenthesized rule
  let yes ← substatement rule
  let no ← if ← eatWord "else" then
      some <$> if ← atWord "if" then rule (.statement false) else substatement rule
    else pure none
  return .ifElse (← spanFrom start) test yes no

def whileStatement (rule : Productions) : Parser Node := do
  let start ← start
  advance
  let test ← parenthesized rule
  let body ← loopBody rule
  return .whileLoop (← spanFrom start) test body

def doStatement (rule : Productions) : Parser Node := do
  let start ← start
  advance
  let body ← loopBody rule
  expectWord "while"
  let test ← parenthesized rule
  let _ ← eat ";"
  return .doWhile (← spanFrom start) body test

/-- The label that a jump names, if it does, and the end of the statement. -/
def jumpLabel? : Parser (Option String) := do
  if ← endStatement then return none
  else
    let n ← name false
    expectStatementEnd
    match n with
    | .name _ text => return some text
    | _ => return none

/-- Notes a jump that leads nowhere. -/
def checkJump (isBreak : Bool) (label : Option String) (span : Span) : Parser Unit := do
  let c ← read
  let isUnknown := label.any (!c.labels.contains ·)
  if isBreak then
    if isUnknown then note .breakLabel span
    else if !c.allowBreak then note .breakOutside span
  else
    if !c.allowContinue then note .continueOutside span
    else if isUnknown then note .continueLabel span

/-- A statement that leaves a loop, a round of it, or another statement. -/
def jumpStatement (isBreak : Bool) : Parser Node := do
  let start ← start
  advance
  let label ← jumpLabel?
  let span ← spanFrom start
  checkJump isBreak label span
  return .other span (if isBreak then .breakStatement else .continueStatement) []

def returnStatement (rule : Productions) : Parser Node := do
  let start ← start
  advance
  let value ← if ← atStatementEnd then pure none else some <$> allowingIn (expression rule)
  expectStatementEnd
  let span ← spanFrom start
  if !(← read).inFunction then note .returnOutside span
  return .other span .returnStatement value.toList

def throwStatement (rule : Productions) : Parser Node := do
  let start ← start
  advance
  if ← afterNewline then failHere .newlineAfterThrow
  let value ← allowingIn (expression rule)
  expectStatementEnd
  return .other (← spanFrom start) .throwStatement [value]

/-- The name or pattern that an error is bound to, if it is. -/
def catchParameter (rule : Productions) : Parser (List Node) := do
  if ← eat "(" then
    let target ← rule (.bindingTarget false)
    expect ")"
    return [target]
  else return []

/-- What handles the errors of a `try`, if anything does. -/
def catchClause (rule : Productions) : Parser (List Node) := do
  let start ← start
  if ← eatWord "catch" then
    let param ← catchParameter rule
    let body ← block rule false
    return [.other (← spanFrom start) .catchClause (param ++ [body])]
  else return []

def finallyBlock (rule : Productions) : Parser (List Node) := do
  if ← eatWord "finally" then return [← block rule false] else return []

/-- A handler that has no `try` is a fault, but is read. -/
def strayHandler (rule : Productions) : Parser Node := do
  let span := (← current).span
  note .expectedSemicolon span
  tryCatch (discard (catchClause rule)) fun _ => pure ()
  tryCatch (discard (finallyBlock rule)) fun _ => pure ()
  return .other span .expressionStatement []

def tryStatement (rule : Productions) : Parser Node := do
  let start ← start
  advance
  let body ← block rule false
  let handlerStart ← Parser.start
  let handler ← catchClause rule
  let finalizer ← finallyBlock rule
  if handler.isEmpty && finalizer.isEmpty then note .expectedSemicolon (.point handlerStart)
  return .other (← spanFrom start) .tryStatement (body :: handler ++ finalizer)

/-- A `with` statement, in which a value may be returned as in a function. -/
def withStatement (rule : Productions) : Parser Node := do
  let start ← start
  noteStrict .withInStrict (← current).span
  advance
  let subject ← parenthesized rule
  let body ← withReader (fun c => { c with inFunction := true }) (substatement rule)
  return .other (← spanFrom start) .withStatement [subject, body]

def atCase : Parser Bool := do return (← atWord "case") || (← atWord "default")

/-- The statements behind a case up to the next one. -/
def caseBody (rule : Productions) : Parser (List Node) :=
  collect do
    if (← atCase) || (← at? "\x7d") then return none
    else some <$> inside (rule (.statement true))

/-- One case of a `switch`, of which only one may be the default. -/
def switchCase (rule : Productions) (hasDefault : Bool) : Parser Node := do
  let start ← start
  let isDefault ← atWord "default"
  advance
  if isDefault && hasDefault then failHere .multipleDefaults
  let test ← if isDefault then pure none else some <$> allowingIn (expression rule)
  expect ":"
  let body ← caseBody rule
  return .switchCase (← spanFrom start) test body

def switchCases (rule : Productions) : Parser (List Node) := do
  go (← bound) false []
where
  go : Nat → Bool → List Node → Parser (List Node)
    | 0, _, read => return read.reverse
    | fuel + 1, hasDefault, read => do
      if ← atCase then
        let isDefault ← atWord "default"
        let case ← switchCase rule hasDefault
        go fuel (hasDefault || isDefault) (case :: read)
      else return read.reverse

def switchStatement (rule : Productions) : Parser Node := do
  let start ← start
  advance
  let subject ← parenthesized rule
  expect "\x7b"
  let cases ← withReader (fun c => { c with allowBreak := true }) (switchCases rule)
  expect "\x7d"
  return .switch (← spanFrom start) subject cases

/-- A function behind a label, which strict code and generators may not have. -/
def labelledFunction (rule : Productions) : Parser Node := do
  let isGenerator := (← ahead).lexeme == .punctuator "*"
  let f ← function rule true true
  if (← read).strict then note .labelledFunctionInStrict f.span
  if isGenerator then note .labelledGenerator f.span
  return f

/-- A statement behind a label and its colon. -/
def labelledStatement (rule : Productions) (span : Span) (label : String) : Parser Node := do
  let isDuplicate := (← read).labels.contains label
  let body ← withReader (fun c => { c with allowBreak := true, labels := label :: c.labels }) do
    if ← atWord "function" then labelledFunction rule else substatement rule
  if isDuplicate then note (.duplicateLabel label) span
  return .labeled (← spanFrom span.start) body

/-- The end of a statement that is an expression alone. An operator there is read, but is a fault. -/
def expressionEnd (rule : Productions) (start : Nat) (e : Node) : Parser Node := do
  if ← endStatement then return .other (← spanFrom start) .expressionStatement [e]
  else if (← lexeme).isBinaryOp then
    note .expectedSemicolon (← current).span
    let e ← rule (.operators e 0)
    return .other (← spanFrom start) .expressionStatement [e]
  else failHere .expectedStatementEnd

/-- A statement that begins with an expression: a labelled one, or the expression alone. -/
def expressionStatement (rule : Productions) : Parser Node := do
  let start ← start
  let e ← allowingIn (expression rule)
  match e with
  | .name span text =>
    if ← eat ":" then labelledStatement rule span text
    else
      if text = "interface" && (← afterNewline) then noteStrict (.reservedInStrict text) span
      expressionEnd rule start e
  | _ => expressionEnd rule start e

/-- A function or class where it may not be declared is still read. -/
def declaration (withDeclarations : Bool) (parse : Parser Node) : Parser Node := do
  if !withDeclarations then note .declarationHere (← current).span
  parse

def debuggerStatement : Parser Node := do
  let start ← start
  advance
  expectStatementEnd
  return .other (← spanFrom start) .debuggerStatement []

/-- Whether `using` follows an `await` that a statement begins with. One of the program shows that it
is a module. -/
def atAwaitUsing (withDeclarations : Bool) : Parser Bool := do
  let c ← read
  if (← atWord "await") && (withDeclarations || c.topLevel) then
    if c.topLevel then markModule
    return (← ahead).lexeme == .word "using"
  else return false

/-- A statement that declares no variables. -/
def plainStatement (rule : Productions) (withDeclarations : Bool) : Parser Node := do
  match ← lexeme with
  | .punctuator "\x7b" => block rule false
  | .punctuator ";" => takeOther .emptyStatement
  | .word "break" => jumpStatement true
  | .word "catch" | .word "finally" => strayHandler rule
  | .word "continue" => jumpStatement false
  | .word "debugger" => debuggerStatement
  | .word "do" => doStatement rule
  | .word "for" => forStatement rule
  | .word "function" => declaration withDeclarations (function rule true true)
  | .word "class" => declaration withDeclarations (classFrom rule true true)
  | .word "if" => ifStatement rule
  | .word "return" => returnStatement rule
  | .word "switch" => switchStatement rule
  | .word "throw" => throwStatement rule
  | .word "try" => tryStatement rule
  | .word "with" => withStatement rule
  | .word "while" => whileStatement rule
  | _ => if ← atAsyncFunction then function rule true true else expressionStatement rule

/-- A statement that begins with no word for variables. -/
def usingOrPlain (rule : Productions) (withDeclarations : Bool) : Parser Node := do
  if ← atAwaitUsing withDeclarations then awaitUsing rule
  else if (← atWord "using") && withDeclarations then
    match ← usingDeclaration? rule (← start) with
    | some n => return n
    | none => plainStatement rule withDeclarations
  else plainStatement rule withDeclarations

/-- A statement, or a declaration where those may stand. -/
def statement (rule : Productions) (withDeclarations : Bool) : Parser Node := do
  let word? ← if withDeclarations || (← atWord "var") then variableWord? else pure none
  match word? with
  | some word => variableDeclaration rule word false
  | none => usingOrPlain rule withDeclarations

end Parser

end Adequacy
