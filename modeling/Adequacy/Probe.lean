import Adequacy.Insertion
import Adequacy.ModuleSyntax
import Adequacy.Token

namespace Adequacy

/-- What is counted as covered. -/
inductive Category where
  | func | stmt | branch
  deriving DecidableEq, Repr

namespace Category

def all : List Category := [func, stmt, branch]

def name : Category → String
  | func => "func"
  | stmt => "stmt"
  | branch => "branch"

end Category

/-- A part of an inserted text: fixed, or the call that reports one item of a category. -/
inductive Piece where
  | text (text : String)
  | probe (category : Category) (item : Span)
  deriving DecidableEq, Repr

/-- Pieces to be inserted at an offset, before the items are numbered. -/
structure Mark where
  offset : Nat
  pieces : List Piece
  deriving DecidableEq, Repr

/-- One step in the instrumentation of a node: a mark, or the visit of a child. -/
inductive ProbeStep where
  | mark (mark : Mark)
  | visit (child : Node)

namespace ProbeStep

def visits (ns : List Node) : List ProbeStep := ns.map .visit

/-- A probe in front of every statement that is not a declaration. -/
def statements (body : List Node) : List ProbeStep :=
  body.flatMap fun s =>
    if s.isDeclaration then [.visit s]
    else [.mark ⟨s.span.start, [.probe .stmt s.span, .text "; "]⟩, .visit s]

/-- Puts an expression behind a probe of an item. -/
def wrapped (category : Category) (item : Span) (e : Node) : List ProbeStep :=
  [.mark ⟨e.span.start, [.text "(", .probe category item, .text ", "]⟩, .visit e,
   .mark ⟨e.span.stop, [.text ")"]⟩]

/-- A block with a probe as its first statement. -/
def openedBlock (category : Category) (item : Span) (block : Node) : List ProbeStep :=
  [.mark ⟨block.span.start + 1, [.text " ", .probe category item, .text ";"]⟩, .visit block]

/-- A body with an optional probe as its first statement. One that is no block becomes one. -/
def body (item : Option (Category × Span)) (n : Node) : List ProbeStep :=
  match n, item with
  | .block .., some (category, span) => openedBlock category span n
  | .block .., none => [.visit n]
  | _, _ =>
    let probe := match item with
      | some (category, span) => [.probe category span, .text "; "]
      | none => []
    .mark ⟨n.span.start, .text "\x7b " :: probe⟩ :: statements [n] ++
      [.mark ⟨n.span.stop, [.text " \x7d"]⟩]

/-- An operand of a logical expression has a probe unless it is such an expression itself. -/
def operand (n : Node) : List ProbeStep :=
  if n.peel.logicalOp?.isSome then [.visit n] else wrapped .branch n.peel.span n

/-- The place behind the colon of a case. -/
def caseStart (source : String) (span : Span) (test : Option Node) : Nat :=
  let behind := match test with
    | some test => test.span.stop
    | none => span.start + "default".utf8ByteSize
  match Token.find? source behind ":" with
  | some colon => colon.stop
  | none => span.stop

/-- How a node is instrumented. The tests of cases and the left sides of loops over the members of
something stay as they are. -/
def ofNode (source : String) (n : Node) : List ProbeStep :=
  match n with
  | .func span params body => visits params ++ openedBlock .func span body
  | .arrow span params body =>
    visits params ++
      match body with
      | .block .. => openedBlock .func span body
      | _ =>
        [.mark ⟨body.span.start,
          [.text "\x7b ", .probe .func span, .text "; ", .probe .stmt body.span,
           .text "; return "]⟩,
         .visit body, .mark ⟨body.span.stop, [.text "; \x7d"]⟩]
  | .declarator span target init =>
    .visit target :: init.toList.flatMap (wrapped .stmt span)
  | .defaulted _ target value => .visit target :: wrapped .stmt value.span value
  | .block _ body | .staticBlock _ body => statements body
  | .switchCase span test body =>
    .mark ⟨caseStart source span test, [.text " ", .probe .branch span, .text ";"]⟩ ::
      statements body
  | .ifElse span test yes no =>
    .visit test :: body (some (.branch, span)) yes ++
      match no with
      | some no => body (some (.branch, span)) no
      | none =>
        [.mark ⟨span.stop, [.text " else \x7b ", .probe .branch span, .text "; \x7d"]⟩]
  | .conditional span test yes no =>
    .visit test :: wrapped .branch span yes ++ wrapped .branch span no
  | .logical _ _ left right => operand left ++ operand right
  | .labeled _ s => if s.isLoop then [.visit s] else body none s
  | .whileLoop _ test s | .doWhile _ s test => .visit test :: body none s
  | .forLoop _ init test step s =>
    visits (init.toList ++ test.toList ++ step.toList) ++ body none s
  | .forEach _ _ right s => .visit right :: body none s
  | n => visits n.children

@[simp] theorem visit_mem_visits {c : Node} {ns : List Node} : .visit c ∈ visits ns ↔ c ∈ ns := by
  simp [visits]

@[simp] theorem visit_mem_statements {c : Node} {body : List Node} :
    .visit c ∈ statements body ↔ c ∈ body := by
  simp only [statements, List.mem_flatMap]
  constructor
  · rintro ⟨s, hs, h⟩
    split at h <;> simp_all
  · intro h
    exact ⟨c, h, by split <;> simp⟩

@[simp] theorem visit_mem_wrapped {c e : Node} {k : Category} {s : Span} :
    .visit c ∈ wrapped k s e ↔ c = e := by
  simp [wrapped]

@[simp] theorem visit_mem_openedBlock {c b : Node} {k : Category} {s : Span} :
    .visit c ∈ openedBlock k s b ↔ c = b := by
  simp [openedBlock]

@[simp] theorem visit_mem_body {c n : Node} {item : Option (Category × Span)} :
    .visit c ∈ body item n ↔ c = n := by
  unfold body
  split <;> simp

@[simp] theorem visit_mem_operand {c n : Node} : .visit c ∈ operand n ↔ c = n := by
  unfold operand
  split <;> simp

/-- Only children of a node are visited for it. -/
theorem mem_children_of_visit {source : String} {c n : Node} (h : .visit c ∈ ofNode source n) :
    c ∈ n.children := by
  cases n <;> simp only [ofNode] at h
  case arrow =>
    simp only [List.mem_append, visit_mem_visits] at h
    split at h <;> simp_all [Node.children]
  case ifElse =>
    simp only [List.mem_append, List.mem_cons, visit_mem_body] at h
    split at h <;> simp_all [Node.children]
    all_goals grind
  case labeled => split at h <;> simp_all [Node.children]
  all_goals simp_all [Node.children]
  all_goals grind

end ProbeStep

end Adequacy
