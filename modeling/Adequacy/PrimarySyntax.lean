import Adequacy.ClassSyntax

namespace Adequacy

namespace Parser

/-- An expression that may have the dots of a spread in front. -/
def maybeSpread (rule : Productions) : Parser Node := do
  let start ← start
  if ← eat "..." then
    let e ← assignment rule
    return .other (← spanFrom start) .spread [e]
  assignment rule

def noteTrailingComma (start : Nat) (comma : Option Span) : Parser Unit :=
  let commas := comma.toList.map (start, ·)
  remember (fun s => { s with trailingCommas := commas ++ s.trailingCommas })
    fun _ => ⟨rfl, rfl, rfl, fun _ => .inl⟩

def arrayLiteral (rule : Productions) : Parser Node := do
  let start ← start
  advance
  let parts ← collect do
    if ← at? "]" then return none
    else if ← at? "," then some <$> hole
    else
      let e ← maybeSpread rule
      if !(← at? "]") then
        expect ","
        if ← at? "]" then noteTrailingComma start (some (← get).last)
      return some e
  expect "]"
  return .array (← spanFrom start) parts

def objectMethod (rule : Productions) (start : Nat) (key : MemberKey) (isAsync isGenerator : Bool)
    (params : Parser (List Node)) : Parser Node := do
  let f ← memberFunction rule start isAsync isGenerator params
  return .other f.span .method (key.nodes ++ [f])

/-- A member of an object literal whose key is a word, or that begins with a word that says what it
is. -/
def wordMember (rule : Productions) (start : Nat) (text : String) (keySpan : Span) :
    Parser Node := do
  if ← eat "?" then note .optionalMember (← get).last
  let ends := (← at? "=") || (← at? ",") || (← at? "\x7d")
  if ends then
    let target := Node.name keySpan text
    if ← eat "=" then
      let value ← assignment rule
      return .other (← spanFrom start) .coverInitializer [target, value]
    return .other (← spanFrom start) .shorthand [target]
  else if text = "async" then
    let isGenerator ← eat "*"
    let (key, _) ← memberKey rule
    objectMethod rule start key true isGenerator (parameters rule)
  else if text = "get" ∨ text = "set" then
    let (key, keySpan) ← memberKey rule
    objectMethod rule start key false false
      (if text = "get" then getterParameters rule keySpan else setterParameters rule keySpan)
  else unexpected "... , *,  (, [, :, , ?, = or an identifier"

/-- A member of an object literal. -/
def objectMember (rule : Productions) : Parser Node := do
  let start ← start
  if ← at? "..." then maybeSpread rule
  else if ← eat "*" then
    let (key, _) ← memberKey rule
    objectMethod rule start key false true (parameters rule)
  else
    let (key, keySpan) ← memberKey rule
    if ← eat ":" then
      let value ← assignment rule
      return .other (← spanFrom start) .property (key.nodes ++ [value])
    if ← at? "(" then objectMethod rule start key false false (parameters rule)
    else match key with
    | .word text => wordMember rule start text keySpan
    | _ => unexpected "identifier"

def objectLiteral (rule : Productions) : Parser Node := do
  let start ← start
  advance
  let (parts, comma) ← members (objectMember rule)
  noteTrailingComma start comma
  return .object (← spanFrom start) parts

/-- Gives up at a bad escape, unless a tag may take it. -/
def checkEscapes (bad : Option SyntaxError) (isTagged : Bool) : Parser Unit := do
  if let (some e, false) := (bad, isTagged) then throw e

/-- A template; only a tagged one may hold bad escapes. -/
def templateLiteral (rule : Productions) (isTagged : Bool) : Parser Node := do
  let start ← start
  let (segments, values) ← go (← bound) [] []
  return .template (← spanFrom start) segments values
where
  go : Nat → List String → List Node → Parser (List String × List Node)
    | 0, _, _ => unexpected "template"
    | fuel + 1, segments, values => do
      match ← lexeme with
      | .templateText raw bad isLast =>
        checkEscapes bad isTagged
        advance
        if isLast then return ((raw :: segments).reverse, values.reverse)
        let value ← allowingIn (expression rule)
        if !(← at? "\x7d") then unexpected "\x60\x7d\x60"
        rescan .template
        go fuel (raw :: segments) (value :: values)
      | .bad e => throw e
      | _ => unexpected "template"

/-- Notes flags that do not exist, and one that stands twice. -/
def checkFlags (flags : List Char) (span : Span) : Parser Unit := do
  let known := flags.filter ("dgimsuvy".toList.contains ·)
  if known.length < flags.length then note .unknownFlags span
  if let some flag := known.find? (fun c => 1 < known.count c) then
    note (.duplicateFlag flag) span

/-- A regular expression whose first slash is the current lexeme. -/
def regexLiteral : Parser Node := do
  rescan .regex
  match ← lexeme with
  | .regex flags =>
    let span := (← current).span
    advance
    checkFlags flags span
    return .literal span .regex
  | .bad e => throw e
  | _ => failHere .expectedExpression

/-- The items up to an arrow that stands behind the last one. If the first is a name, the arrow
begins a function whose parameters they all are, and which is one more item; else it is skipped. -/
def withLateArrow (rule : Productions) (start : Nat) (items : List Node) :
    Parser (List Node) := do
  match items with
  | .name .. :: _ | .other _ .spread [.name ..] :: _ =>
    let params ← toParameters none items
    return items ++ [← arrowRest rule start false params]
  | _ => return items

/-- One more item between parentheses, and what an arrow behind it makes of them. -/
def nextItem (rule : Productions) (items : List Node) : Parser (List Node) := do
  let start ← start
  let e ← maybeSpread rule
  if ← eat "=>" then withLateArrow rule start (items ++ [e])
  else return items ++ [e]

/-- The items between parentheses, which may turn out to be parameters, and the comma that ends
them. -/
def parenItems (rule : Productions) : Parser (List Node × Option Span) := do
  expect "("
  let (items, comma) ← allowingIn (go (← bound) [] none)
  expect ")"
  return (items, comma)
where
  go : Nat → List Node → Option Span → Parser (List Node × Option Span)
    | 0, items, comma => return (items, comma)
    | fuel + 1, items, comma => do
      if ← at? ")" then return (items, comma)
      let items ← nextItem rule items
      if ← at? ")" then go fuel items none
      else
        expect ","
        let comma := (← get).last
        go fuel items (if ← at? ")" then some comma else none)

/-- Notes the members of an object literal that only a pattern can have. -/
def checkMembers (items : List Node) : Parser Unit :=
  for item in items do
    let item := match item with
      | .other _ .spread [e] => e
      | e => e
    if let .object _ members := item then
      for member in members do
        if let .other span .coverInitializer _ := member then note .coverInitializer span

/-- Takes operators behind an arrow function whose body has braces only to note them. -/
def checkArrowEnd (rule : Productions) (arrow : Node) : Parser Node := do
  match arrow with
  | .arrow _ _ (.block ..) =>
    if (← lexeme).isBinaryOp then
      note .expectedSemicolon (← current).span
      let e ← rule (.operators arrow 0)
      if !(← at? ";") then note .expectedSemicolon (← current).span
      return e
    else return arrow
  | _ => return arrow

/-- The arrow function that items between parentheses are the parameters of. -/
def parenArrow (rule : Productions) (start : Nat) (canBeArrow isAsync : Bool) (items : List Node)
    (comma : Option Span) : Parser Node := do
  if ← afterNewline then failHere .newlineBeforeArrow
  if !canBeArrow then failHere .arrowNotAllowed
  advance
  let params ← toParameters comma items
  let arrow ← arrowRest rule start isAsync params
  checkArrowEnd rule arrow

def checkSpreads (items : List Node) : Parser Unit :=
  for item in items do
    if let .other _ .spread [e] := item then fail .spreadInParens e.span

/-- The expression that items between parentheses are. -/
def parenGroup (start : Nat) (items : List Node) : Parser Node := do
  checkSpreads items
  let span ← spanFrom start
  match items with
  | [] => fail .emptyParens span
  | [e] => return .paren span e
  | first :: rest =>
    let inner := ⟨first.span.start, ((first :: rest).getLastD first).span.stop⟩
    return .paren span (.other inner .sequence items)

/-- An expression between parentheses, or an arrow function, or a call of `async`, whose span is
then given. -/
def parenOrArrow (rule : Productions) (canBeArrow : Bool) (async : Option Span) : Parser Node := do
  let start := (async.getD (← current).span).start
  let (items, comma) ← parenItems rule
  if ← at? "=>" then parenArrow rule start canBeArrow async.isSome items comma
  else
    checkMembers items
    match async with
    | some span => return .call (← spanFrom start) (.name span "async") items
    | none => parenGroup start items

/-- An arrow function with a single parameter that has no parentheses. -/
def bareArrow (rule : Productions) (start : Nat) (isAsync : Bool) (param : Node) :
    Parser Node := do
  if isEvalOrArguments param && (← read).strict then note .evalOrArguments param.span
  arrowRest rule start isAsync [param]

def isAsyncName : Node → Bool
  | .name _ text => text = "async"
  | _ => false

/-- What a name behind `async` begins. -/
def asyncArrow (rule : Productions) (start : Nat) (n : Node) : Parser Node := do
  let c ← read
  let isOf := c.inForHead && (← atWord "of") && (← ahead).lexeme != .punctuator "=>"
  if isOf then
    if !c.inAwaitHead then note .asyncOf (← get).last
    return n
  else
    let param ← boundName false
    expect "=>"
    bareArrow rule start true param

/-- An expression that begins with a name. -/
def nameOrArrow (rule : Productions) (canBeArrow : Bool) : Parser Node := do
  let start ← start
  let n ← reference
  let sameLine := !(← afterNewline)
  if canBeArrow && isAsyncName n && sameLine && (← atReference) then asyncArrow rule start n
  else if canBeArrow && sameLine && (← at? "=>") then
    advance
    bareArrow rule start false n
  else return n

/-- Remembers a string literal that makes code strict where it stands in a prologue. -/
def markStrict (start : Nat) : Parser Unit :=
  remember (fun s => { s with strictMarks := start :: s.strictMarks })
    fun _ => ⟨rfl, rfl, rfl, fun _ => .inl⟩

def takeLiteral (value : Literal) : Parser Node := do
  let span := (← current).span
  if isStrictDirective (← lexeme) then markStrict span.start
  advance
  return .literal span value

def takeOther (form : Form) : Parser Node := do
  let span := (← current).span
  advance
  return .other span form []

/-- A private name in front of `in`. -/
def privateReference : Parser Node := do
  let start ← start
  advance
  let _ ← anyWord
  return .other (← spanFrom start) .privateName []

/-- An expression that begins with `async`. -/
def asyncPrimary (rule : Productions) (canBeArrow : Bool) : Parser Node := do
  if ← atAsyncFunction then function rule false false
  else
    let next ← ahead
    if canBeArrow && next.lexeme == .punctuator "(" && !next.afterNewline then
      let span := (← current).span
      advance
      parenOrArrow rule canBeArrow (some span)
    else nameOrArrow rule canBeArrow

/-- An expression that no operator or access has been applied to yet. -/
def primary (rule : Productions) : Parser Node := do
  let start ← start
  let canBeArrow := (← get).arrowStart == some start
  match ← lexeme with
  | .bad e => advance; throw e
  | .number => takeLiteral .number
  | .bigInt => takeLiteral .bigInt
  | .string .. => takeLiteral .string
  | .templateText .. => templateLiteral rule false
  | .punctuator "/" | .punctuator "/=" => regexLiteral
  | .punctuator "[" => arrayLiteral rule
  | .punctuator "\x7b" => objectLiteral rule
  | .punctuator "(" => parenOrArrow rule canBeArrow none
  | .punctuator "#" => privateReference
  | .word "this" => takeOther .this
  | .word "null" => takeLiteral .null
  | .word "true" => takeLiteral (.bool true)
  | .word "false" => takeLiteral (.bool false)
  | .word "function" => function rule false false
  | .word "class" => classFrom rule false false
  | .word "let" => nameOrArrow rule canBeArrow
  | .word "async" => asyncPrimary rule canBeArrow
  | _ =>
    if ← atReference then nameOrArrow rule canBeArrow
    else failHere .expectedExpression

end Parser

end Adequacy
