import Adequacy.PrimarySyntax

namespace Adequacy

/-- How tightly an operator between two operands binds. -/
def precedence? : String → Option Nat
  | "??" | "||" => some 1
  | "&&" => some 2
  | "|" => some 3
  | "^" => some 4
  | "&" => some 5
  | "==" | "!=" | "===" | "!==" => some 6
  | "<" | "<=" | ">" | ">=" | "in" | "instanceof" => some 7
  | "<<" | ">>" | ">>>" => some 8
  | "+" | "-" => some 9
  | "*" | "/" | "%" => some 10
  | "**" => some 11
  | _ => none

/-- The operators that assign to what stands before them. -/
def assignmentOps : List String :=
  ["=", "+=", "-=", "*=", "/=", "%=", "**=", "<<=", ">>=", ">>>=", "&=", "|=", "^=", "&&=", "||=",
   "??="]

def LogicalOp.ofText? : String → Option LogicalOp
  | "&&" => some .and
  | "||" => some .or
  | "??" => some .coalesce
  | _ => none

/-- An operator applied to two operands. -/
def Node.ofOperator (op : String) (left right : Node) : Node :=
  let span := ⟨left.span.start, right.span.stop⟩
  match LogicalOp.ofText? op with
  | some op => .logical span op left right
  | none => .binary span op left right

/-- Whether an expression may begin with the lexeme. -/
def Lexeme.startsExpression : Lexeme → Bool
  | .punctuator text =>
    ["(", "[", "\x7b", "!", "~", "+", "-", "++", "--", "/", "/=", "<", "*", "#"].contains text
  | .word text =>
    if Scan.keywords.contains text then
      ["this", "super", "null", "true", "false", "function", "new", "class", "typeof", "void",
        "delete", "import", "throw"].contains text
    else text ≠ "let"
  | .string .. | .number | .bigInt | .templateText .. | .regex _ => true
  | .bad _ | .eof => false

namespace Parser

def arguments (rule : Productions) : Parser (List Node) := do
  expect "("
  let args ← go (← bound) []
  expect ")"
  return args
where
  go : Nat → List Node → Parser (List Node)
    | 0, read => return read.reverse
    | fuel + 1, read => do
      if ← at? ")" then return read.reverse
      else
        let e ← maybeSpread rule
        if ← at? ")" then return (e :: read).reverse
        else
          expect ","
          go fuel (e :: read)

/-- Takes a question mark and a dot, which blanks may part. -/
def optionalMark : Parser Bool := do
  if (← at? "?") && (← ahead).lexeme == .punctuator "." then
    advance
    expect "."
    return true
  else return false

def isSuper : Node → Bool
  | .other _ .super _ => true
  | _ => false

/-- An access to a member of an expression. -/
def accessOf (base : Node) (isOptional : Bool) (index : Option Node) : Parser Node := do
  if isSuper base && !(← read).allowSuper then fail .superOutside base.span
  let span ← spanFrom base.span.start
  return if isOptional || base.isChainLink then .chainMember span isOptional base index
    else .member span base index

/-- A call of an expression. -/
def callOf (base : Node) (isOptional : Bool) (args : List Node) : Parser Node := do
  let span ← spanFrom base.span.start
  return if isOptional || base.isChainLink then .chainCall span isOptional base args
    else .call span base args

def propertyName (base : Node) : Parser Unit := do
  if ← at? "#" then
    let _ ← privateName
    if isSuper base && (← read).allowSuper then failHere .superPrivate
  else
    let _ ← anyWord

/-- A template that an expression is the tag of, if one follows. -/
def taggedTemplate? (rule : Productions) (base : Node) (isChain : Bool) :
    Parser (Option Node) := do
  match ← lexeme with
  | .templateText .. =>
    let text ← templateLiteral rule true
    let span ← spanFrom base.span.start
    if isChain then note .chainTemplate span
    return some (.other span .taggedTemplate [base, text])
  | _ => return none

/-- What an access or a call behind an expression and its mark makes of it, if one follows. -/
def link? (rule : Productions) (noCall : Bool) (base : Node) (isOptional : Bool) :
    Parser (Option Node) := do
  if ← at? "[" then
    advance
    let index ← allowingIn (expression rule)
    expect "]"
    some <$> accessOf base isOptional (some index)
  else if (← at? "(") && (!noCall || isOptional) then
    let args ← arguments rule
    some <$> callOf base isOptional args
  else
    let isNamed ← if isOptional then pure true else eat "."
    if isNamed then
      propertyName base
      some <$> accessOf base isOptional none
    else
      if isSuper base then failHere (if noCall then .superCall else .superOutside)
      taggedTemplate? rule base base.isChainLink

/-- What an access or a call behind an expression makes of it, if one follows. The word `super` goes
with no optional mark and does not stand alone. -/
def subscript? (rule : Productions) (noCall : Bool) (base : Node) : Parser (Option Node) := do
  let isOptional ← if isSuper base then pure false else optionalMark
  link? rule noCall base isOptional

/-- The accesses and calls behind an expression. Where calls are refused, one with an optional
mark is still read. -/
def subscripts (rule : Productions) (noCall : Bool) (base : Node) : Parser Node := do
  go (← bound) base
where
  go : Nat → Node → Parser Node
    | 0, base => return base
    | fuel + 1, base => do
      match ← subscript? rule noCall base with
      | some n => go fuel n
      | none => return base

/-- Marks the program as a module, without making what was read before strict. -/
def markModule : Parser Unit :=
  remember (fun s => { s with isModule := true }) fun _ => ⟨rfl, rfl, rfl, fun _ => .inl⟩

/-- Remembers whether an expression begins here that may be the head of an arrow function. -/
def markArrowStart (isHead : Bool) : Parser Unit :=
  remember (fun s => { s with arrowStart := if isHead then some s.current.span.start else none })
    fun _ => ⟨rfl, rfl, rfl, fun _ h => by split at h <;> cases h; exact .inr rfl⟩

/-- A call that imports a module. -/
def importCall (rule : Productions) (start : Nat) (noCall : Bool) : Parser Node := do
  if noCall || !(← at? "(") then failHere .importMisplaced
  let args ← arguments rule
  subscripts rule noCall (.other (← spanFrom start) .importCall args)

/-- What the word `import` begins where an expression stands. -/
def importExpression (rule : Productions) (noCall : Bool) : Parser Node := do
  let start ← start
  expectWord "import"
  if ← eat "." then
    markModule
    let (word, _) ← anyWord
    if word = "meta" then subscripts rule noCall (.other (← spanFrom start) .metaProperty [])
    else if word = "defer" ∨ word = "source" then importCall rule start noCall
    else unexpected "meta"
  else importCall rule start noCall

/-- What was called for behind `new` and a dot. -/
def newTarget (rule : Productions) (start : Nat) : Parser Node := do
  if !(← eatWord "target") then unexpected "target"
  let span ← spanFrom start
  let c ← read
  if !c.allowNewTarget && !c.inParameters && !c.inClass then note .newTargetOutside span
  subscripts rule true (.other span .metaProperty [])

/-- An optional link cannot be constructed. -/
def checkCallee (callee : Node) : Parser Unit :=
  match callee with
  | .chainMember span true .. | .chainCall span true .. => fail .chainInNew span
  | _ => pure ()

/-- What `new` makes of the expression behind it. -/
def construction (rule : Productions) (start : Nat) : Parser Node := do
  let callee ← rule .newCallee
  if callee.isArrow then return callee
  else
    checkCallee callee
    if ← at? "(" then
      let args ← arguments rule
      subscripts rule true (.construct (← spanFrom start) callee (some args))
    else return .construct (← spanFrom start) callee none

/-- What may stand behind `new` as far as the arguments. -/
def newCallee (rule : Productions) : Parser Node := do
  let start ← start
  if ← eatWord "new" then
    if ← eat "." then newTarget rule start else construction rule start
  else if ← atWord "super" then subscripts rule true (← takeOther .super)
  else if ← atWord "import" then importExpression rule true
  else
    let e ← primary rule
    if e.isArrow then return e
    else subscripts rule true e

/-- Whether no call can follow an expression that `newCallee` has read. -/
def endsCallee : Node → Bool
  | .arrow .. | .construct _ _ none => true
  | _ => false

/-- An expression with all its accesses and calls. -/
def leftHandSide (rule : Productions) : Parser Node := do
  if ← atWord "super" then subscripts rule false (← takeOther .super)
  else if ← atWord "import" then importExpression rule false
  else
    let callee ← rule .newCallee
    if !endsCallee callee && (← at? "(") then subscripts rule false callee
    else return callee

/-- Notes what is wrong with waiting here. -/
def checkAwait (span : Span) : Parser Unit := do
  let c ← read
  if !c.inAsync then
    if c.topLevel then markModule
    if c.inFunction then note .awaitOutside span
  if c.inParameters && !c.inFunction then note .awaitInParameter span

/-- An expression behind an `await` that was read. Where it waits for nothing it is a name. -/
def awaitExpression (rule : Productions) : Parser Node := do
  let span := (← get).last
  if ← at? "*" then failHere .awaitStar
  let c ← read
  let isName := !c.inAsync &&
    ((← atStatementEnd) || (← at? ")") || (← at? "]") || (← at? ","))
  if isName then
    if c.inModule then note .awaitAsName span
    return .name span "await"
  else
    checkAwait span
    let e ← rule .unary
    return .other (← spanFrom span.start) .await [e]

/-- The operators that stand before their operand. -/
def unaryOp? : Lexeme → Option String
  | .punctuator text => if ["+", "-", "~", "!"].contains text then some text else none
  | .word text => if ["delete", "void", "typeof"].contains text then some text else none
  | _ => none

def updateOp? : Lexeme → Option String
  | .punctuator text => if text = "++" ∨ text = "--" then some text else none
  | _ => none

/-- An expression that an operator stands before. An operand that is none is noted. -/
def unaryOf (rule : Productions) (start : Nat) (op : String) : Parser Node := do
  advance
  let place ← Parser.start
  let e ← tryCatch (rule .unary) fun error => do
    add error
    return .other (.point (place - 1)) .invalid []
  if op = "delete" ∧ e.isName then noteStrict .deleteName e.span
  return .unary ⟨start, e.span.stop⟩ op e

def updateOf (rule : Productions) (start : Nat) (op : String) : Parser Node := do
  advance
  let e ← rule .unary
  noteTarget .notReference e
  return .update ⟨start, e.span.stop⟩ op true e

/-- An expression that an update operator may stand behind on the same line. -/
def postfixExpression (rule : Productions) : Parser Node := do
  let e ← rule .leftHandSide
  if e.isArrow || (← afterNewline) then return e
  else
    match updateOp? (← lexeme) with
    | some op =>
      noteTarget .notReference e
      advance
      return .update (← spanFrom e.span.start) op false e
    | none => return e

def unaryExpression (rule : Productions) : Parser Node := do
  let start ← start
  let lexeme ← lexeme
  match updateOp? lexeme, unaryOp? lexeme with
  | some op, _ => updateOf rule start op
  | _, some op => unaryOf rule start op
  | _, _ =>
    if ← eatWord "await" then awaitExpression rule
    else postfixExpression rule

/-- The operator at hand, if it stands between two operands. -/
def operator? : Parser (Option String) := do
  match ← lexeme with
  | .word "in" => return if (← read).allowIn then some "in" else none
  | .word "instanceof" => return some "instanceof"
  | lexeme@(.punctuator text) => return if lexeme.isBinaryOp then some text else none
  | _ => return none

def noteMixed (span : Span) (n : Node) : Parser Unit :=
  match n.logicalOp? with
  | some .and | some .or => note .mixedCoalesce span
  | _ => pure ()

/-- A power has no base with an operator before it. -/
def checkBase (op : String) (left : Node) : Parser Unit := do
  if op = "**" then
    match left with
    | .unary .. | .other _ .await _ => failHere .unaryBase
    | _ => pure ()

/-- Notes where the coalescing operator meets other logical ones without parentheses. -/
def checkMixed (op : String) (left right n : Node) : Parser Unit := do
  if op = "??" then
    noteMixed left.span left
    noteMixed right.span right
  if left.logicalOp? = some .coalesce then noteMixed n.span n

/-- What an operator that has been seen makes of the operand before it. -/
def operation (rule : Productions) (left : Node) (op : String) (prec : Nat) : Parser Node := do
  advance
  checkBase op left
  let operand ← rule .unary
  let right ← rule (.operators operand (if op = "**" then prec - 1 else prec))
  let n := Node.ofOperator op left right
  checkMixed op left right n
  return n

/-- The operators behind an operand that bind more tightly than `above`. -/
def operators (rule : Productions) (left : Node) (above : Nat) : Parser Node := do
  go (← bound) left
where
  go : Nat → Node → Parser Node
    | 0, left => return left
    | fuel + 1, left => do
      match ← operator? with
      | none => return left
      | some op =>
        let prec := (precedence? op).getD 0
        if prec ≤ above then return left
        else go fuel (← operation rule left op prec)

/-- An operand and the operators behind it. Where an operator stands in place of the operand,
parsing goes on behind it. -/
def binaryExpression (rule : Productions) : Parser Node := do
  let left ← tryCatch (rule .unary) fun error => do
    if (← operator?).isSome then
      note .expectedExpression (← current).span
      return .other error.span .invalid []
    else throw error
  if left.isArrow then return left
  else rule (.operators left 0)

def conditionalExpression (rule : Productions) : Parser Node := do
  let start ← start
  let test ← binaryExpression rule
  if test.isArrow then return test
  else if ← eat "?" then
    let yes ← assignment rule
    expect ":"
    let no ← rule .assignment
    return .conditional ⟨start, no.span.stop⟩ test yes no
  else return test

def yieldExpression (rule : Productions) : Parser Node := do
  let start ← start
  advance
  let c ← read
  if c.inParameters && !c.inFunction then fail .yieldInParameter (← spanFrom start)
  if (← atStatementEnd) || !(← lexeme).startsExpression then
    return .other (← spanFrom start) .yield []
  else
    let _ ← eat "*"
    let e ← rule .assignment
    return .other (← spanFrom start) .yield [e]

/-- The target that an assignment operator makes of the expression before it. -/
def targetOf (op : String) (left : Node) : Parser Node :=
  if op = "=" then assignmentTarget left
  else do
    noteTarget .notAssignable left
    return left

/-- An assignment of what follows an operator to the expression before it. -/
def assignmentTo (rule : Productions) (start : Nat) (op : String) (left : Node) : Parser Node := do
  let target ← targetOf op left
  if !target.isPattern && !target.isTargetForm then fail .invalidTarget left.span
  advance
  let value ← rule .assignment
  return .assign (← spanFrom start) op target value

/-- Whether an expression is one that no assignment operator can follow. -/
def isFinal : Node → Bool
  | .arrow .. | .conditional .. | .binary .. | .logical .. | .unary .. | .update .. => true
  | _ => false

/-- The operator at hand, if it assigns to what stands before it. -/
def assignmentOp? : Lexeme → Option String
  | .punctuator op => if op ∈ assignmentOps then some op else none
  | _ => none

/-- Whether an expression that begins with the lexeme may be the head of an arrow function. -/
def beginsArrow : Lexeme → Bool
  | .word text => text ∉ Scan.keywords ∧ text ≠ "let" ∧ text ≠ "await"
  | .punctuator text => text = "("
  | _ => false

/-- Gives up at a lexeme that cannot be read. -/
def refuseBad : Parser Unit := do
  match ← lexeme with
  | .bad e => advance; throw e
  | _ => pure ()

def assignmentExpression (rule : Productions) : Parser Node := do
  let start ← start
  if (← read).inGenerator && (← atWord "yield") then yieldExpression rule
  else
    refuseBad
    markArrowStart (beginsArrow (← lexeme))
    let left ← conditionalExpression rule
    match assignmentOp? (← lexeme) with
    | some op => if isFinal left then return left else assignmentTo rule start op left
    | none => return left

end Parser

end Adequacy
