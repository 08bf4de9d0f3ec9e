import Adequacy.FunctionSyntax

namespace Adequacy

namespace Parser

/-- A member of a class. -/
structure ClassMember where
  node : Node
  isConstructor : Bool := false

def classKey (rule : Productions) : Parser (MemberKey × Span) := do
  if ← at? "#" then
    let (text, span) ← privateName
    if text = "constructor" then note .privateConstructor span
    return (.privateName text, span)
  else memberKey rule

/-- Whether a field ends in front of the current lexeme. A line end counts only if `canBreak`. -/
def atFieldEnd (canBreak : Bool) : Parser Bool := do
  match ← lexeme with
  | .punctuator "=" | .punctuator "\x7d" | .punctuator ";" => return true
  | _ => if canBreak then atStatementEnd else return false

def field (rule : Productions) (start : Nat) (key : MemberKey) (keySpan : Span) :
    Parser ClassMember := do
  if key.isConstructor then fail .constructorField keySpan
  let value ← if ← eat "=" then
      let inValue (p : Parser Node) : Parser Node :=
        withReader (fun c => { c with allowIn := true, inField := true }) p
      some <$> inValue (rule .assignment)
    else pure none
  if !(← endStatement) then note .expectedSemicolon (← current).span
  return ⟨.other (← spanFrom start) .field (key.nodes ++ value.toList), false⟩

def methodOf (rule : Productions) (start : Nat) (key : MemberKey) (isAsync isGenerator : Bool)
    (params : Parser (List Node)) : Parser ClassMember := do
  let f ← memberFunction rule start isAsync isGenerator params
  return ⟨.other f.span .method (key.nodes ++ [f]), false⟩

/-- Notes a fault at a `static`, if there is one. -/
def noteStatic (fault : SyntaxFault) (isStatic : Option Span) : Parser Unit := do
  if let some span := isStatic then note fault span

/-- A constructor, whose parameters belong to what surrounds the class. -/
def constructorOf (rule : Productions) (start : Nat) (isStatic : Option Span) :
    Parser ClassMember := do
  expect "("
  let params ← elements ")" .restNotLast none (parameter rule) (restElement rule)
  expect ")"
  let body ← functionBody rule params false false
  noteStatic .staticConstructor isStatic
  let f := .func (← spanFrom start) params body
  return ⟨.other f.span .method [f], true⟩

def staticBlock (rule : Productions) (start : Nat) : Parser ClassMember := do
  let body ← withReader (fun c => { c with inStaticBlock := true, inField := true })
    (block rule false)
  return ⟨.staticBlock (← spanFrom start) body.children, false⟩

def generatorMethod (rule : Productions) (start : Nat) : Parser ClassMember := do
  let (key, _) ← classKey rule
  if key.isConstructor then note .constructorGenerator (← spanFrom start)
  methodOf rule start key false true (parameters rule)

/-- A method behind its `async`. -/
def asyncMethod (rule : Productions) (start : Nat) : Parser ClassMember := do
  let isGenerator ← eat "*"
  let (key, keySpan) ← classKey rule
  if key.isConstructor then fail .constructorAsync keySpan
  methodOf rule start key true isGenerator (parameters rule)

/-- A getter or a setter behind the word that makes it one. -/
def accessor (rule : Productions) (start : Nat) (isGetter : Bool) (wordSpan : Span) :
    Parser ClassMember := do
  let (key, _) ← classKey rule
  if key.isConstructor then note .constructorAccessor wordSpan
  methodOf rule start key false false
    (if isGetter then getterParameters rule wordSpan else setterParameters rule wordSpan)

/-- A member that begins with a key, or with a word that says what it is. -/
def keyedMember (rule : Productions) (start : Nat) (isStatic : Option Span) (key : MemberKey)
    (keySpan : Span) : Parser ClassMember := do
  if ← at? "(" then
    if key.isConstructor then constructorOf rule start isStatic
    else methodOf rule start key false false (parameters rule)
  else
    let word? := match key with
      | .word text => some text
      | _ => none
    let nextLineGenerator := (← afterNewline) && (← at? "*")
    let isAccessor := (word? = some "get" || word? = some "set") && !(← atFieldEnd false) &&
      !nextLineGenerator
    if !isAccessor && (← atFieldEnd true) then field rule start key keySpan
    else if word? = some "async" && !(← afterNewline) then asyncMethod rule start
    else if isAccessor then accessor rule start (word? = some "get") keySpan
    else unexpected "* for generator, private key, identifier or async"

/-- A member behind its `static`, whose place is given if it has one. -/
def classMemberFrom (rule : Productions) (start : Nat) (isStatic : Option Span) :
    Parser ClassMember := do
  if (← atWord "static") && (← ahead).lexeme == .punctuator "\x7b" then
    noteStatic .modifierHere isStatic
    advance
    staticBlock rule start
  else if ← eat "*" then generatorMethod rule start
  else
    let (key, keySpan) ← classKey rule
    keyedMember rule start isStatic key keySpan

def classMember (rule : Productions) : Parser ClassMember := do
  let start ← start
  let staticSpan := (← current).span
  if ← eatWord "static" then
    if ← at? "\x7b" then staticBlock rule start
    else if ← at? "(" then methodOf rule start (.word "static") false false (parameters rule)
    else if ← atFieldEnd false then field rule start (.word "static") staticSpan
    else classMemberFrom rule start (some staticSpan)
  else classMemberFrom rule start none

/-- The members of a class up to its closing brace. Only one of them may be a constructor. -/
def classMembers (rule : Productions) : Parser (List Node) := do
  go (← bound) false []
where
  go : Nat → Bool → List Node → Parser (List Node)
    | 0, _, read => return read.reverse
    | fuel + 1, hasConstructor, read => do
      if ← at? "\x7d" then return read.reverse
      if ← eat ";" then go fuel hasConstructor read
      else
        let member ← classMember rule
        if member.isConstructor && hasConstructor then
          note .duplicateConstructor member.node.span
        go fuel (hasConstructor || member.isConstructor) (member.node :: read)

/-- A class; what it extends is visited after its members. -/
def classFrom (rule : Productions) (isDeclaration needsName : Bool) : Parser Node :=
  withReader (fun c => { c with strict := true }) do
    let start ← start
    expectWord "class"
    optionalName true needsName
    let heritage ← if ← eatWord "extends" then some <$> rule .leftHandSide else pure none
    if ← eatWord "extends" then
      note .extendsTwice (← get).last
      discard (rule .leftHandSide)
    expect "\x7b"
    let members ← withReader (fun c => { c with allowSuper := true, inClass := true })
      (classMembers rule)
    expect "\x7d"
    return .other (← spanFrom start) (if isDeclaration then .classDeclaration else .classExpression)
      (members ++ heritage.toList)

end Parser

end Adequacy
