import Adequacy.Catalog
import Adequacy.ModuleSyntax
import Adequacy.Patch
import Adequacy.Token

namespace Adequacy

/-- One change to one node of a program. -/
structure Mutation where
  kind : MutantKind
  node : Span
  patch : Patch
  deriving Repr

/-- Where a node stands as far as its own mutations depend on it. -/
structure Standing where
  /- The logical operator that the node is an operand of, without parentheses between them. -/
  parent : Option LogicalOp := none
  /- Whether the node is reached from an optional link through objects and callees alone. -/
  onChain : Bool := false
  deriving DecidableEq

namespace Node

/-- The node's children in the order of visits, each with where it stands. -/
def placed (s : Standing) (n : Node) : List (Standing × Node) :=
  match n with
  | logical _ op l r => [({ parent := some op }, l), ({ parent := some op }, r)]
  | chainMember _ _ base index => ({ onChain := true }, base) :: index.toList.map ({}, ·)
  | chainCall _ _ callee args => ({ onChain := true }, callee) :: args.map ({}, ·)
  | member _ base index => ({ onChain := s.onChain }, base) :: index.toList.map ({}, ·)
  | call _ callee args => ({ onChain := s.onChain }, callee) :: args.map ({}, ·)
  | n => n.children.map ({}, ·)

theorem mem_children_of_mem_placed {s : Standing} {n : Node} {p : Standing × Node}
    (h : p ∈ n.placed s) : p.2 ∈ n.children := by
  cases n <;> simp_all only [placed, children, List.mem_cons, List.mem_map, List.not_mem_nil,
    or_false, List.mem_append, false_and, exists_false] <;> grind

/-- Whether the node is a call of a plain name. -/
def isCallOf (function : String) : Node → Bool
  | call _ (name _ text) _ => text = function
  | _ => false

/-- The nodes from a node down in pre-order, without the calls of the assertion function and what
is inside them. -/
def visits (assertion : String) (s : Standing) (n : Node) : List (Standing × Node) :=
  if n.isCallOf assertion then []
  else
    (s, n) :: (n.placed s).attach.flatMap fun ⟨p, _⟩ => p.2.visits assertion p.1
termination_by sizeOf n
decreasing_by exact sizeOf_lt_of_mem_children (mem_children_of_mem_placed (by assumption))

end Node

/-- The nodes of a program that are visited, each with where it stands. -/
def Program.visits (assertion : String) (p : Program) : List (Standing × Node) :=
  p.items.flatMap (Node.visits assertion {})

namespace Mutation

/-- How tightly logical operators bind. -/
def rank : LogicalOp → Nat
  | .and => 2
  | _ => 1

/-- Whether an `inner` expression needs parentheses as an operand of an `outer` one. -/
def needsParens (inner outer : LogicalOp) : Bool :=
  ((inner == .coalesce) != (outer == .coalesce)) || rank inner < rank outer

def isWordChar (c : Char) : Bool := isAlphanumeric c || c == '_' || c == '$'

/-- Whether two characters read differently once they touch. -/
def fuses (left right : Char) : Bool :=
  (left == '+' && right == '+') || (left == '-' && right == '-') ||
    (left == '/' && (right == '/' || right == '*')) || (isWordChar left && isWordChar right)

/-- Whether a text would fuse where another one ends. -/
def fusesTexts (left right : List Char) : Bool :=
  match left.getLast?, right.head? with
  | some a, some b => fuses a b
  | _, _ => false

/-- A replacement with blanks where it would fuse with what stands around its place. -/
def padded (source : String) (target : Span) (text : String) : String :=
  let before := ((textBefore? source target.start).getD "").toList
  let after := (charsFrom? source target.stop).getD []
  (if fusesTexts before text.toList then " " else "") ++ text ++
    (if fusesTexts text.toList after then " " else "")

/-- Puts a text in place of a span of the node. -/
def replace (source : String) (kind : MutantKind) (node target : Span) (text : String) :
    Mutation :=
  ⟨kind, node, [⟨target, padded source target text⟩]⟩

/-- Empties a list. -/
def clear (kind : MutantKind) (node target : Span) (empty : String) : Mutation :=
  ⟨kind, node, [⟨target, empty⟩]⟩

/-- A condition is negated if it is a literal, and else forced both ways. -/
def condition (source : String) (node : Span) (test : Node) : List Mutation :=
  match test.boolean? with
  | some b => [replace source .cond node test.span (if b then "false" else "true")]
  | none => [replace source .cond node test.span "true", replace source .cond node test.span "false"]

/-- A loop is only forced to stop. -/
def loopCondition (source : String) (node : Span) (test : Node) : List Mutation :=
  if test.boolean? = some false then []
  else [replace source .cond node test.span "false"]

/-- The place of a missing test between the semicolons of a loop's head. -/
def missingTest? (source : String) (node : Span) (init : Option Node) : Option Nat := do
  let paren ← Token.find? source (node.start + 3) "("
  let after := match init with
    | some init => init.span.stop
    | none => paren.stop
  let semi ← Token.find? source after ";"
  return semi.stop

/-- The parentheses that an operand needs once the operator above it is replaced. -/
def operandParens (outer : LogicalOp) (operand : Node) : Patch :=
  match operand.logicalOp? with
  | some inner =>
    if needsParens inner outer then
      [Edit.insert operand.span.start "(", Edit.insert operand.span.stop ")"]
    else []
  | none => []

/-- Replaces the operator of a logical expression and keeps how its operands and the expression
around it are grouped. -/
def regroup (parent : Option LogicalOp) (node : Span) (left right : Node) (token : Edit)
    (op : LogicalOp) : Patch :=
  let wraps := parent.any (needsParens op)
  (if wraps then [Edit.insert node.start "("] else []) ++ operandParens op left ++ [token] ++
    operandParens op right ++ (if wraps then [Edit.insert node.stop ")"] else [])

/-- The replacements of an operator between two operands. Next to `null` the strictness of an
equality makes no difference that is looked for. -/
def operator (source : String) (parent : Option LogicalOp) (node : Span) (op : String)
    (left right : Node) : List Mutation :=
  match Catalog.binary? op, Token.find? source left.span.stop op with
  | some (kind, replacements), some token =>
    let strictness := !(left.isNull || right.isNull) || !Catalog.isEquality op
    let kept := if strictness then replacements else replacements.eraseIdx 1
    kept.map fun text =>
      let edit : Edit := ⟨token, padded source token text⟩
      match LogicalOp.ofText? text with
      | some new => ⟨kind, node, regroup parent node left right edit new⟩
      | none => ⟨kind, node, [edit]⟩
  | _, _ => []

/-- The edit that makes one link mandatory. -/
def mandatory (source : String) (optional : Bool) (base : Node) (replacement : String) : Patch :=
  if optional then
    match Token.find? source base.span.stop "?." with
    | some token => [⟨token, replacement⟩]
    | none => []
  else []

/-- Makes all links of a chain mandatory, the outermost first. -/
def chainPatch (source : String) : Node → Patch
  | .chainMember _ optional base index =>
    mandatory source optional base (if index.isSome then "" else ".") ++ chainPatch source base
  | .chainCall _ optional callee _ => mandatory source optional callee "" ++ chainPatch source callee
  | .member _ base _ => chainPatch source base
  | .call _ callee _ => chainPatch source callee
  | _ => []

/-- The places of a template's segments behind its opening mark or behind an interpolation. None
if one is not where it should be. -/
def segments? (source : String) : Nat → List String → List Node → Option (List Span)
  | _, [], _ => some []
  | start, raw :: later, values => do
    let stop := start + raw.utf8ByteSize
    let delimiter := if later.isEmpty then "\x60" else "$\x7b"
    if slice? source stop (stop + delimiter.utf8ByteSize) ≠ some delimiter then none
    else if later.isEmpty then return [⟨start, stop⟩]
    else
      let value ← values.head?
      let brace ← Token.find? source value.span.stop "\x7d"
      let rest ← segments? source brace.stop later values.tail
      return ⟨start, stop⟩ :: rest

/-- Whether two segments would begin an interpolation if they touched. -/
def opensInterpolation : List String → Bool
  | a :: b :: rest =>
    (a.toList.getLast? == some '$' && b.toList.head? == some '\x7b') || opensInterpolation (b :: rest)
  | _ => false

/-- Fills or empties a template without interpolations; fills the empty segments of another one,
and removes its interpolations. -/
def template (source : String) (node : Span) (texts : List String) (values : List Node) :
    List Mutation :=
  match segments? source (node.start + 1) texts values with
  | none => []
  | some segments =>
    if values.isEmpty then
      segments.head?.toList.map fun s =>
        ⟨.stringLiteral, node, [⟨s, if s.isEmpty then Catalog.filler else ""⟩]⟩
    else
      (segments.filter (·.isEmpty)).map (⟨.stringLiteral, node, [⟨·, Catalog.filler⟩]⟩) ++
        if opensInterpolation texts then []
        else [⟨.stringLiteral, node, [⟨node, "\x60" ++ String.join texts ++ "\x60"⟩]⟩]

def literal (source : String) (span : Span) : Literal → List Mutation
  | .bool b => [replace source .booleanLiteral span span (if b then "false" else "true")]
  | .string =>
    [replace source .stringLiteral span span
      (if span.length = 2 then "\"" ++ Catalog.filler ++ "\"" else "\"\"")]
  | .regex | .bigInt => [replace source .stringLiteral span span "\"\""]
  | _ => []

def unary (source : String) (node : Span) (op : String) : List Mutation :=
  (Catalog.unary.lookup op).map
    (replace source .unaryOp node ⟨node.start, node.start + op.utf8ByteSize⟩)

/-- Moves the operator to the other side of its operand, then replaces it where it is. -/
def update (source : String) (node : Span) (op : String) (isFirst : Bool) (operand : Node) :
    List Mutation :=
  let text := operand.span.textD source
  let token : Span :=
    if isFirst then ⟨node.start, node.start + op.utf8ByteSize⟩
    else ⟨node.stop - op.utf8ByteSize, node.stop⟩
  replace source .update node node (if isFirst then text ++ op else op ++ text) ::
    (Catalog.update.lookup op).map (replace source .update node token)

/-- The mutations of one node alone. -/
def ofNode (source : String) (s : Standing) (n : Node) : List Mutation :=
  match n with
  | .array span elements => if elements.isEmpty then [] else [clear .arrayDecl span span "[]"]
  | .object span members =>
    if members.isEmpty then [] else [clear .objectLiteral span span "\x7b\x7d"]
  | .block span body => if body.isEmpty then [] else [clear .blockStmt span span "\x7b\x7d"]
  | .construct span callee args =>
    if (args.getD []).isEmpty then [] else [clear .arrayDecl span ⟨callee.span.stop, span.stop⟩ "()"]
  | .assign span op target _ =>
    match Token.find? source target.span.stop op with
    | some token => (Catalog.assignment.lookup op).map (replace source .assignExpr span token)
    | none => []
  | .binary span op left right => operator source none span op left right
  | .logical span op left right => operator source s.parent span op.text left right
  | .chainMember span .. | .chainCall span .. =>
    let patch := chainPatch source n
    if s.onChain || patch.isEmpty then [] else [⟨.optionalChain, span, patch⟩]
  | .conditional span test _ _ | .ifElse span test _ _ => condition source span test
  | .whileLoop span test _ | .doWhile span _ test | .forLoop span _ (some test) _ _ =>
    loopCondition source span test
  | .forLoop span init none _ _ =>
    (missingTest? source span init).toList.map fun place =>
      ⟨.cond, span, [Edit.insert place "false"]⟩
  | .literal span value => literal source span value
  | .template span texts values => template source span texts values
  | .unary span op _ => unary source span op
  | .update span op isFirst operand => update source span op isFirst operand
  | _ => []

/-- The mutations of a program in the order of its nodes. -/
def ofProgram (assertion : String) (p : Program) : List Mutation :=
  (p.visits assertion).flatMap fun (s, n) => ofNode p.source s n

end Mutation

end Adequacy
