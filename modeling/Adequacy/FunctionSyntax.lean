import Adequacy.Pattern

namespace Adequacy

/-- The key of a member. -/
inductive MemberKey where
  | word (text : String)
  | string (value : String)
  | number
  | computed (e : Node)
  | privateName (text : String)

namespace MemberKey

/-- The part of a key that is an expression. -/
def nodes : MemberKey → List Node
  | computed e => [e]
  | _ => []

def isConstructor : MemberKey → Bool
  | word text | string text => text = "constructor"
  | _ => false

end MemberKey

namespace Parser

/-- An expression in which `in` is an operator. -/
def assignment (rule : Productions) : Parser Node := allowingIn (rule .assignment)

/-- One expression or several with commas between them. -/
def expression (rule : Productions) : Parser Node := do
  let first ← rule .assignment
  if ← at? "," then
    let others ← collect do
      if ← eat "," then some <$> rule .assignment else return none
    return .other (← spanFrom first.span.start) .sequence (first :: others)
  return first

def memberKey (rule : Productions) : Parser (MemberKey × Span) := do
  let start ← start
  let key ← match ← lexeme with
    | .string value _ => advance; pure (.string value)
    | .number | .bigInt => advance; pure .number
    | .word text => advance; pure (.word text)
    | .punctuator "[" =>
      advance
      let e ← assignment rule
      expect "]"
      pure (.computed e)
    | _ => unexpected "identifier, string literal, numeric literal or [ for the computed key"
  return (key, ← spanFrom start)

/-- A default value behind a pattern. -/
def withDefault (value : Parser Node) (target : Node) : Parser Node := do
  if ← eat "=" then
    let value ← value
    return .defaulted (← spanFrom target.span.start) target value
  return target

/-- A pattern with an optional default value. -/
def bindingElement (rule : Productions) : Parser Node := do
  withDefault (assignment rule) (← rule (.bindingTarget false))

/-- Notes a comma behind a rest element that stands last. -/
def noteTrailingRest (close : String) : Parser Unit := do
  if ← at? close then noteCommaAfterRest (some (← get).last)

/-- Elements up to a closing mark; `rest` reads one that takes what is left, and has to be last. -/
def elements (close : String) (fault : SyntaxFault) (hole : Option (Parser Node))
    (element rest : Parser Node) : Parser (List Node) := do
  go (← bound) none []
where
  go : Nat → Option Span → List Node → Parser (List Node)
    | 0, _, read => return read.reverse
    | fuel + 1, restSpan, read => do
      if ← at? close then return read.reverse
      if let (some hole, true) := (hole, ← at? ",") then
        let n ← hole
        go fuel restSpan (n :: read)
      else
        if let some span := restSpan then note fault span
        let isRest ← at? "..."
        let n ← if isRest then rest else element
        if !(← at? close) then
          expect ","
          if isRest then noteTrailingRest close
        go fuel (if isRest then some n.span else restSpan) (n :: read)

def hole : Parser Node := do
  let span := (← current).span
  advance
  return .other span .hole []

/-- A rest element in an array pattern or among parameters. -/
def restElement (rule : Productions) : Parser Node := do
  let start ← start
  advance
  let target ← rule (.bindingTarget false)
  return .other (← spanFrom start) .rest [target]

def arrayPattern (rule : Productions) : Parser Node := do
  let start ← start
  advance
  let parts ← elements "]" .restNotFinal (some hole) (bindingElement rule) (restElement rule)
  expect "]"
  return .other (← spanFrom start) .arrayPattern parts

/-- Members of an object or a pattern of one, and the comma that ends them. -/
def members (member : Parser Node) : Parser (List Node × Option Span) := do
  go (← bound) [] none
where
  go : Nat → List Node → Option Span → Parser (List Node × Option Span)
    | 0, read, comma => return (read.reverse, comma)
    | fuel + 1, read, comma => do
      if ← eat "\x7d" then return (read.reverse, comma)
      let n ← member
      if ← at? "\x7d" then go fuel (n :: read) none
      else
        expect ","
        let comma := (← get).last
        go fuel (n :: read) (if ← at? "\x7d" then some comma else none)

def patternMember (rule : Productions) : Parser Node := do
  let start ← start
  if ← at? "..." then restElement rule
  else
    let (key, keySpan) ← memberKey rule
    if ← eat ":" then
      let value ← bindingElement rule
      return .other (← spanFrom start) .patternProperty (key.nodes ++ [value])
    match key with
    | .word text =>
      let target := .name keySpan text
      if ← at? "=" then withDefault (assignment rule) target
      else return .other (← spanFrom start) .shorthand [target]
    | _ => unexpected "an identifier"

/-- A rest member of an object pattern stands last and takes a name. -/
def checkRestMember (parts : List Node) (comma : Option Span) : Parser Unit := do
  for n in parts.dropLast do
    if n.isRest then note .restNotFinal n.span
  match parts.getLast? with
  | some (.other _ .rest [.name ..]) => noteCommaAfterRest comma
  | some (.other span .rest _) => fail .restNeedsName span
  | _ => pure ()

def objectPattern (rule : Productions) : Parser Node := do
  let start ← start
  advance
  let (parts, comma) ← members (patternMember rule)
  checkRestMember parts comma
  return .other (← spanFrom start) .objectPattern parts

/-- A name or a pattern that is bound. -/
def bindingTarget (rule : Productions) (isLexical : Bool) : Parser Node := do
  match ← lexeme with
  | .word _ => boundName isLexical
  | .punctuator "[" => arrayPattern rule
  | .punctuator "\x7b" => objectPattern rule
  | .bad e => advance; throw e
  | _ => unexpected "yield, an identifier, [ or \x7b"

/-- A parameter with an optional default value. -/
def parameter (rule : Productions) : Parser Node := do
  withDefault (rule .assignment) (← rule (.bindingTarget false))

/-- The parameters of a function, up to the closing parenthesis. -/
def parameters (rule : Productions) : Parser (List Node) :=
  elements ")" .restNotLast none (parameter rule) do
    let start ← start
    advance
    let target ← rule (.bindingTarget false)
    if ← eat "=" then
      let _ ← rule .assignment
      note .restWithDefault target.span
    return .other (← spanFrom start) .rest [target]

/-- Whether a body that starts with the lexeme is strict by its own word. -/
def isStrictDirective : Lexeme → Bool
  | .string _ raw => raw = "\"use strict\"" ∨ raw = "'use strict'"
  | _ => false

/-- The statements of a block between its braces. -/
def block (rule : Productions) (mayBeStrict : Bool) : Parser Node := inside do
  let start ← start
  expect "\x7b"
  let makesStrict := mayBeStrict && isStrictDirective (← lexeme)
  let body ← withReader (fun c => { c with strict := c.strict || makesStrict }) <| collect do
    if ← at? "\x7d" then return none
    else if ← atEnd then
      note (.expected "\x7d" "<eof>") (← current).span
      return none
    else some <$> rule (.statement true)
  if !(← atEnd) then advance
  return .block (← spanFrom start) body

/-- What surrounds the body of a function. -/
def inBody {α : Type} (isAsync isGenerator isArrow : Bool) (p : Parser α) : Parser α :=
  withReader (fun c =>
    { c with
      topLevel := false, inAsync := isAsync, inGenerator := isGenerator, inFunction := true,
      inStaticBlock := false, allowBreak := false, allowContinue := false,
      allowNewTarget := c.allowNewTarget || !isArrow, labels := [] }) p

/-- The place in a prologue of string literals where it makes code strict. -/
def strictDirective? (marks : List Nat) : List Node → Option Span
  | .other span .expressionStatement [.literal place .string] :: rest =>
    if marks.contains place.start then some span else strictDirective? marks rest
  | _ => none

/-- A body that calls itself strict goes only with parameters that are plain names. -/
def checkStrictBody (params : List Node) (body : Node) : Parser Unit := do
  let marks := (← get).strictMarks
  if let .block _ statements := body then
    if let some span := strictDirective? marks statements then
      if !params.all Node.isName then note .strictInComplex span

def checkedBody (params : List Node) (body : Parser Node) : Parser Node := do
  let body ← body
  checkStrictBody params body
  return body

/-- A function's body between its braces. -/
def functionBody (rule : Productions) (params : List Node) (isAsync isGenerator : Bool) :
    Parser Node :=
  checkedBody params (inBody isAsync isGenerator false (allowingIn (block rule true)))

/-- The parameters and the body of a function whose text starts at an offset. -/
def functionRest (rule : Productions) (start : Nat) (isAsync isGenerator : Bool)
    (params : Parser (List Node)) : Parser Node := do
  expect "("
  let params ← withReader (fun c =>
    { c with
      inParameters := true, inFunction := false, inAsync := isAsync,
      inGenerator := isGenerator }) params
  expect ")"
  let body ← functionBody rule params isAsync isGenerator
  return .func (← spanFrom start) params body

/-- The function of an object's or a class's member other than a constructor. -/
def memberFunction (rule : Productions) (start : Nat) (isAsync isGenerator : Bool)
    (params : Parser (List Node)) : Parser Node :=
  withReader (fun c => { c with allowSuper := true, inField := false })
    (functionRest rule start isAsync isGenerator params)

def getterParameters (rule : Productions) (keySpan : Span) : Parser (List Node) := do
  let params ← parameters rule
  if !params.isEmpty then note .getterParameter keySpan
  return params

def setterParameters (rule : Productions) (keySpan : Span) : Parser (List Node) := do
  let params ← parameters rule
  if params.length ≠ 1 then note .setterParameter keySpan
  match params with
  | .other span .rest _ :: _ => note .restInSetter span
  | _ => pure ()
  return params

/-- The name of a function or a class, which may lack one unless it is needed. -/
def optionalName (isLexical isNeeded : Bool) : Parser Unit := do
  if isNeeded || (← atReference) then
    let _ ← boundName isLexical

/-- What the function keyword begins. Only declarations need a name. -/
def functionFrom (rule : Productions) (start : Nat) (isAsync isDeclaration needsName : Bool) :
    Parser Node := do
  expectWord "function"
  let isGenerator ← eat "*"
  let outside {α : Type} (p : Parser α) : Parser α :=
    withReader (fun c => { c with allowSuper := false, inField := false }) p
  outside <| withReader (fun c =>
      if isDeclaration then c else { c with inAsync := isAsync, inGenerator := isGenerator })
    (optionalName false needsName)
  let f ← outside (functionRest rule start isAsync isGenerator (parameters rule))
  return .other f.span (if isDeclaration then .functionDeclaration else .functionExpression) [f]

/-- Whether `async` stands in front of the function keyword on the same line. -/
def atAsyncFunction : Parser Bool := do
  if ← atWord "async" then
    let next ← ahead
    return next.lexeme == .word "function" && !next.afterNewline
  else return false

/-- A function expression or declaration, the keyword or its `async` coming next. -/
def function (rule : Productions) (isDeclaration needsName : Bool) : Parser Node := do
  let start ← start
  let isAsync ← eatWord "async"
  functionFrom rule start isAsync isDeclaration needsName

/-- What follows the arrow of an arrow function. -/
def arrowRest (rule : Productions) (start : Nat) (isAsync : Bool) (params : List Node) :
    Parser Node := do
  let body ← checkedBody params <| inBody isAsync false true do
    if ← at? "\x7b" then block rule false else rule .assignment
  return .arrow (← spanFrom start) params body

end Parser

end Adequacy
