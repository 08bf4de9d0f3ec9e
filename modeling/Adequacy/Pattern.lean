import Adequacy.Parser

namespace Adequacy

/-- What an expression is read again for once it turns out to be a pattern. -/
inductive PatternUse where
  | assignment | assignmentElement | binding
  deriving DecidableEq

/-- The use of the patterns inside a pattern. -/
def PatternUse.element : PatternUse → PatternUse
  | binding => binding
  | _ => assignmentElement

namespace Node

/-- Whether an assignment to the expression is one to a single place. -/
def isSimpleTarget (strict : Bool) : Node → Bool
  | name _ text => !(strict && (text = "eval" || text = "arguments"))
  | paren _ inner => inner.isSimpleTarget strict
  | member _ base _ =>
    match base with
    | member .. => base.isSimpleTarget strict
    | chainMember .. | chainCall .. => false
    | _ => true
  | _ => false

/-- Whether an expression may stand before an assignment operator at all, simple or not. -/
def isTargetForm : Node → Bool
  | name .. | member .. | chainMember .. | chainCall .. | paren .. => true
  | _ => false

def isPattern : Node → Bool
  | other _ form _ => form = .arrayPattern ∨ form = .objectPattern
  | _ => false

def isRest : Node → Bool
  | other _ .rest _ => true
  | _ => false

end Node

namespace Parser

/-- Notes a fault at an expression that is not a simple target. -/
def noteTarget (fault : SyntaxFault) (n : Node) : Parser Unit := do
  if !n.isSimpleTarget (← read).strict then note fault n.span

/-- The comma that ends the elements of the literal that starts at an offset. -/
def trailingComma? (start : Nat) : Parser (Option Span) := do
  return (← get).trailingCommas.lookup start

def noteCommaAfterRest (comma : Option Span) : Parser Unit :=
  match comma with
  | some comma => note .commaAfterRest comma
  | none => pure ()

/-- Notes an expression other than a name or a literal of parts that is no target in a pattern. -/
def checkElement (use : PatternUse) (n : Node) : Parser Unit :=
  match use, n with
  | .assignment, _ => pure ()
  | .assignmentElement, .member .. | .assignmentElement, .call ..
  | .assignmentElement, .construct .. | .assignmentElement, .literal ..
  | .assignmentElement, .paren .. | .assignmentElement, .template ..
  | .assignmentElement, .other _ .importCall _
  | .assignmentElement, .func .. | .assignmentElement, .other _ .functionExpression _
  | .assignmentElement, .other _ .classExpression _ => noteTarget .notAssignable n
  | _, _ => note .notPattern n.span

mutual

/-- Reads an expression again as a pattern. -/
def toPattern (use : PatternUse) : Node → Parser Node
  | n@(.name ..) => do
    if use = .assignmentElement then noteTarget .notAssignable n
    return n
  | .array span elements => do
    return .other span .arrayPattern (← toElements use.element span.start elements)
  | .object span members => do
    return .other span .objectPattern (← toMembers use.element span.start members)
  | n@(.assign span op target value) =>
    if use = .assignment then pure n
    else if op = "=" then do
      let target ← if target.isPattern then pure target else toPattern use target
      return .defaulted span target value
    else do
      note .notPattern span
      return n
  | n => do
    checkElement use n
    return n

/-- Reads the elements of the array that starts at an offset as those of a pattern. -/
def toElements (use : PatternUse) (start : Nat) : List Node → Parser (List Node)
  | [] => return []
  | .other span .spread [e] :: rest => do
    if !rest.isEmpty then
      note .restNotFinal span
      toElements use start rest
    else
      if e matches .assign .. then note .restWithDefault span
      noteCommaAfterRest (← trailingComma? start)
      return [.other span .rest [← toPattern use e]]
  | hole@(.other _ .hole _) :: rest => return hole :: (← toElements use start rest)
  | e :: rest => return (← toPattern use e) :: (← toElements use start rest)

/-- Reads the members of the object that starts at an offset as those of a pattern. -/
def toMembers (use : PatternUse) (start : Nat) : List Node → Parser (List Node)
  | [] => return []
  | .other span form parts :: rest => do
    let member ← toMember use start rest.isEmpty span form parts
    return member :: (← toMembers use start rest)
  | n :: _ => fail .notPattern n.span

def toMember (use : PatternUse) (start : Nat) (isLast : Bool) (span : Span) :
    Form → List Node → Parser Node
  | .property, [value] => return .other span .patternProperty [← toPattern use value]
  | .property, [key, value] => return .other span .patternProperty [key, ← toPattern use value]
  | .shorthand, parts => return .other span .shorthand parts
  | .coverInitializer, [target, value] => return .defaulted span target value
  | .spread, [e] => do
    if !isLast then note .restNotFinal span
    noteCommaAfterRest (← trailingComma? start)
    let target ← match use, e with
      | .binding, .name .. => pure e
      | .binding, _ => note .restNeedsName span; pure e
      | _, _ => toPattern use e
    if target matches .defaulted .. then note .restWithDefault span
    return .other span .rest [target]
  | _, _ => fail .notPattern span

end

/-- The target of a simple assignment. -/
def assignmentTarget (n : Node) : Parser Node := do
  match n with
  | .array .. | .object .. => toPattern .assignment n
  | _ =>
    noteTarget .notReference n
    return n

/-- The names that a pattern binds directly or in its parts must fit strict code. -/
def checkStrictNames : Nat → List Node → Parser Unit
  | 0, _ => pure ()
  | _, [] => pure ()
  | fuel + 1, n :: rest => do
    if isEvalOrArguments n then note .evalOrArguments n.span
    let inner := match n with
      | .other _ .arrayPattern parts | .other _ .objectPattern parts | .other _ .rest parts => parts
      | .other _ .patternProperty parts => parts.getLast?.toList
      | .other _ .shorthand parts => parts
      | .defaulted _ target _ => [target]
      | _ => []
    checkStrictNames fuel (inner ++ rest)

/-- Reads what stood between the parentheses of an arrow function as its parameters. -/
def toParameters (comma : Option Span) (items : List Node) : Parser (List Node) := do
  let params ← go items
  if (← read).strict then checkStrictNames (← bound) params
  return params
where
  go : List Node → Parser (List Node)
    | [] => return []
    | .other span .spread [e] :: rest => do
      if !rest.isEmpty then
        note .restNotLast span
        go rest
      else
        if e matches .assign .. then note .restWithDefault span
        noteCommaAfterRest comma
        return [.other span .rest [← toPattern .binding e]]
    | e :: rest => return (← toPattern .binding e) :: (← go rest)

end Parser

end Adequacy
