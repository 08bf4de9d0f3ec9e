import Adequacy.Span

namespace Adequacy

inductive LogicalOp where
  | and | or | coalesce
  deriving DecidableEq, Repr

def LogicalOp.text : LogicalOp → String
  | and => "&&"
  | or => "||"
  | coalesce => "??"

/-- The kinds of literal. What they denote is left to the source text, except for booleans. -/
inductive Literal where
  | null | bool (value : Bool) | string | number | bigInt | regex
  deriving DecidableEq, Repr

/-- The nodes that count only through their children. -/
inductive Form where
  | this | super | hole | privateName | metaProperty | invalid
  | sequence | spread | await | yield | taggedTemplate | importCall
  | functionExpression | classExpression
  /- Parts of objects, classes and patterns. A computed key is the first child. -/
  | property | shorthand | coverInitializer | method | field
  | arrayPattern | objectPattern | patternProperty | rest
  /- Statements and declarations. -/
  | expressionStatement | variableDeclaration | functionDeclaration | classDeclaration
  | returnStatement | throwStatement | tryStatement | catchClause | withStatement
  | breakStatement | continueStatement | emptyStatement | debuggerStatement
  | importDeclaration | exportDeclaration
  deriving DecidableEq, Repr

/-- A program's syntax. Parentheses are nodes; operators are given by their spelling. -/
inductive Node where
  | other (span : Span) (form : Form) (children : List Node)
  | name (span : Span) (text : String)
  | literal (span : Span) (value : Literal)
  | array (span : Span) (elements : List Node)
  | object (span : Span) (members : List Node)
  | template (span : Span) (segments : List String) (values : List Node)
  | func (span : Span) (params : List Node) (body : Node)
  | arrow (span : Span) (params : List Node) (body : Node)
  | unary (span : Span) (op : String) (operand : Node)
  | update (span : Span) (op : String) (isFirst : Bool) (operand : Node)
  | binary (span : Span) (op : String) (left right : Node)
  | logical (span : Span) (op : LogicalOp) (left right : Node)
  | assign (span : Span) (op : String) (target value : Node)
  | conditional (span : Span) (test yes no : Node)
  | call (span : Span) (callee : Node) (args : List Node)
  | construct (span : Span) (callee : Node) (args : Option (List Node))
  | member (span : Span) (base : Node) (index : Option Node)
  /- The links of an optional chain; `optional` tells whether the link itself has the mark. -/
  | chainMember (span : Span) (optional : Bool) (base : Node) (index : Option Node)
  | chainCall (span : Span) (optional : Bool) (base : Node) (args : List Node)
  | paren (span : Span) (inner : Node)
  | block (span : Span) (body : List Node)
  | staticBlock (span : Span) (body : List Node)
  | declarator (span : Span) (target : Node) (init : Option Node)
  /- A pattern with a default value. -/
  | defaulted (span : Span) (target value : Node)
  | ifElse (span : Span) (test yes : Node) (no : Option Node)
  | whileLoop (span : Span) (test body : Node)
  | doWhile (span : Span) (body test : Node)
  | forLoop (span : Span) (init test step : Option Node) (body : Node)
  | forEach (span : Span) (left right body : Node)
  | labeled (span : Span) (body : Node)
  | switch (span : Span) (subject : Node) (cases : List Node)
  | switchCase (span : Span) (test : Option Node) (body : List Node)
  deriving Repr

namespace Node

instance : Inhabited Node := ⟨.other ⟨0, 0⟩ .invalid []⟩

def span : Node → Span
  | other s .. | name s .. | literal s .. | array s .. | object s .. | template s .. | func s ..
  | arrow s .. | unary s .. | update s .. | binary s .. | logical s .. | assign s ..
  | conditional s .. | call s .. | construct s .. | member s .. | chainMember s .. | chainCall s ..
  | paren s .. | block s .. | staticBlock s .. | declarator s .. | defaulted s .. | ifElse s ..
  | whileLoop s .. | doWhile s .. | forLoop s .. | forEach s .. | labeled s .. | switch s ..
  | switchCase s .. => s

/-- The nodes right below a node in the order they are visited: that of the source, but for the
test of a `do` loop, which comes before the body. -/
def children : Node → List Node
  | other _ _ cs => cs
  | name .. | literal .. => []
  | array _ cs | object _ cs | template _ _ cs | block _ cs | staticBlock _ cs => cs
  | func _ params body | arrow _ params body => params ++ [body]
  | unary _ _ e | update _ _ _ e | paren _ e | labeled _ e => [e]
  | binary _ _ l r | logical _ _ l r | assign _ _ l r | defaulted _ l r => [l, r]
  | conditional _ t y n => [t, y, n]
  | call _ f args | chainCall _ _ f args => f :: args
  | construct _ f args => f :: args.getD []
  | member _ b i | chainMember _ _ b i => b :: i.toList
  | declarator _ t i => t :: i.toList
  | ifElse _ t y n => t :: y :: n.toList
  | whileLoop _ t b => [t, b]
  | doWhile _ b t => [t, b]
  | forLoop _ i t s b => i.toList ++ t.toList ++ s.toList ++ [b]
  | forEach _ l r b => [l, r, b]
  | switch _ s cs => s :: cs
  | switchCase _ t b => t.toList ++ b

theorem sizeOf_lt_of_mem_toList {c : Node} {o : Option Node} (h : c ∈ o.toList) :
    sizeOf c < sizeOf o := by
  cases o with
  | none => cases h
  | some n =>
    cases List.mem_singleton.mp h
    rw [Option.some.sizeOf_spec]
    omega

theorem sizeOf_lt_of_mem_getD {c : Node} {o : Option (List Node)} (h : c ∈ o.getD []) :
    sizeOf c < sizeOf o := by
  cases o with
  | none => cases h
  | some cs =>
    have hc := List.sizeOf_lt_of_mem (show c ∈ cs from h)
    rw [Option.some.sizeOf_spec]
    omega

/-- A child is in one of the fields of its node, and smaller than that. -/
theorem sizeOf_lt_of_mem_children {c n : Node} (h : c ∈ n.children) : sizeOf c < sizeOf n := by
  cases n <;> simp only [children, List.mem_append, List.mem_cons, List.not_mem_nil] at h <;>
    grind [→ List.sizeOf_lt_of_mem, → sizeOf_lt_of_mem_toList, → sizeOf_lt_of_mem_getD]

/-- What holds of a node whenever it holds of its children holds of all nodes. -/
theorem induct {P : Node → Prop} (step : ∀ n, (∀ c ∈ n.children, P c) → P n) (n : Node) : P n :=
  step n fun c _ => induct step c
termination_by sizeOf n
decreasing_by exact sizeOf_lt_of_mem_children (by assumption)

/-- The node inside any parentheses. -/
def peel : Node → Node
  | paren _ inner => inner.peel
  | n => n

def isName : Node → Bool
  | name .. => true
  | _ => false

def isArrow : Node → Bool
  | arrow .. => true
  | _ => false

/-- Whether a statement is a declaration. -/
def isDeclaration : Node → Bool
  | other _ form _ => form = .variableDeclaration ∨ form = .functionDeclaration ∨ form = .classDeclaration
  | _ => false

def isBlock : Node → Bool
  | block .. => true
  | _ => false

def isLoop : Node → Bool
  | whileLoop .. | doWhile .. | forLoop .. | forEach .. => true
  | _ => false

def isChainLink : Node → Bool
  | chainMember .. | chainCall .. => true
  | _ => false

/-- The value of a boolean literal that stands without parentheses. -/
def boolean? : Node → Option Bool
  | literal _ (.bool b) => some b
  | _ => none

/-- Whether the node is `null`, in parentheses or not. -/
def isNull (n : Node) : Bool :=
  match n.peel with
  | literal _ .null => true
  | _ => false

/-- The operator of a logical expression that stands without parentheses. -/
def logicalOp? : Node → Option LogicalOp
  | logical _ op _ _ => some op
  | _ => none

end Node

end Adequacy
