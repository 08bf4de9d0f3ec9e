import Adequacy.Instrumentation
import Adequacy.Proofs.Weaving

namespace Adequacy

/-- Prints a text whose probes are numbered on from the given counts. -/
abbrev Printer := ProbeCounts → List Char × ProbeCounts

namespace Printer

def text (t : String) : Printer := fun counts => (t.toList, counts)

def probe (c : Category) : Printer := fun counts =>
  ((c.probe (counts.get c)).toList, counts.bump c)

/-- Prints one text behind the other. -/
def concat : List Printer → Printer
  | [] => fun counts => ([], counts)
  | p :: later => fun counts =>
    let (front, counts) := p counts
    let (back, counts) := concat later counts
    (front ++ back, counts)

/-- Prints all but the first character. -/
def tail (p : Printer) : Printer := fun counts =>
  let (text, counts) := p counts
  (text.tail, counts)

/-- Prints texts in the order given, each in place of what is under its span. -/
def edits : List (Span × Printer) → ProbeCounts → Patch × ProbeCounts
  | [], counts => ([], counts)
  | (span, p) :: later, counts =>
    let (text, counts) := p counts
    let (edits, counts) := edits later counts
    (⟨span, String.ofList text⟩ :: edits, counts)

/-- Copies the text under a span, but for the parts that are printed. -/
def copy (source : List Char) (span : Span) (parts : List (Span × Printer)) : Printer :=
  fun counts =>
    let (edits, counts) := edits parts counts
    (Patch.splice (span.chars source) span.start (Patch.inOrder edits), counts)

end Printer

/-- A piece of what is printed for a part of a node. -/
inductive Slot where
  | text (text : String)
  | probe (category : Category)
  | node (n : Node)
  /- A block without its opening brace. -/
  | inner (block : Node)

/-- A part of a node, printed in place of the text under its span. -/
structure PrintPart where
  span : Span
  slots : List Slot

namespace Node

/-- The text that belongs to a node. A function has that from its parameters on: the span of a
method's function also takes the name of the method. -/
def region : Node → Span
  | func _ params body => ⟨(params.head?.getD body).span.start, body.span.stop⟩
  | n => n.span

end Node

namespace PrintPart

def whole (n : Node) : PrintPart := ⟨n.region, [.node n]⟩

/-- A statement of a sequence prints behind its probe, if it is no declaration. -/
def statement (s : Node) : PrintPart :=
  ⟨s.region, if s.isDeclaration then [.node s] else [.probe .stmt, .text "; ", .node s]⟩

def wrapped (c : Category) (e : Node) : PrintPart :=
  ⟨e.region, [.text "(", .probe c, .text ", ", .node e, .text ")"]⟩

/-- A block with a probe right behind its opening brace. -/
def opened (c : Category) (block : Node) : PrintPart :=
  ⟨block.region, [.text "\x7b ", .probe c, .text ";", .inner block]⟩

/-- A body with an optional probe as its first statement. One that is no block is wrapped. -/
def body (probe : Option Category) (n : Node) : PrintPart :=
  match n, probe with
  | .block .., some c => opened c n
  | .block .., none => whole n
  | _, _ =>
    ⟨n.region, .text "\x7b " :: probe.toList.flatMap (fun c => [.probe c, .text "; "]) ++
      (statement n).slots ++ [.text " \x7d"]⟩

/-- The body of an arrow function. One that is an expression becomes a block. -/
def arrowBody (n : Node) : PrintPart :=
  match n with
  | .block .. => opened .func n
  | _ => ⟨n.region, [.text "\x7b ", .probe .func, .text "; ", .probe .stmt, .text "; return ",
      .node n, .text "; \x7d"]⟩

def operand (n : Node) : PrintPart :=
  if n.peel.logicalOp?.isSome then whole n else wrapped .branch n

/-- The colon of a case with its probe right behind it. -/
def colon (span : Span) : PrintPart := ⟨span, [.text ": ", .probe .branch, .text ";"]⟩

/-- The other branch of a statement that has none of its own. -/
def missingElse (stop : Nat) : PrintPart :=
  ⟨.point stop, [.text " else \x7b ", .probe .branch, .text "; \x7d"]⟩

end PrintPart

namespace Node

/-- The colon of a case, looked up behind its test or its word. -/
def colon? (source : String) (span : Span) (test : Option Node) : Option Span :=
  Token.find? source (test.elim (span.start + "default".utf8ByteSize) (·.span.stop)) ":"

/-- The parts of a node that are printed, in the order of their probes. The rest is copied. -/
def parts (source : String) : Node → List PrintPart
  | func _ params body => params.map .whole ++ [.opened .func body]
  | arrow _ params body => params.map .whole ++ [.arrowBody body]
  | declarator _ target init => .whole target :: init.toList.map (.wrapped .stmt)
  | defaulted _ target value => [.whole target, .wrapped .stmt value]
  | block _ body | staticBlock _ body => body.map .statement
  | switchCase span test body =>
    (colon? source span test).toList.map .colon ++ body.map .statement
  | ifElse span test yes none =>
    [.whole test, .body (some .branch) yes, .missingElse span.stop]
  | ifElse _ test yes (some no) =>
    [.whole test, .body (some .branch) yes, .body (some .branch) no]
  | conditional _ test yes no => [.whole test, .wrapped .branch yes, .wrapped .branch no]
  | logical _ _ left right => [.operand left, .operand right]
  | labeled _ s => [if s.isLoop then .whole s else .body none s]
  | whileLoop _ test s | doWhile _ s test => [.whole test, .body none s]
  | forLoop _ init test step s =>
    (init.toList ++ test.toList ++ step.toList).map .whole ++ [.body none s]
  | forEach _ _ right s => [.whole right, .body none s]
  | n => n.children.map .whole

end Node

namespace Slot

/-- The node that a slot prints. -/
@[simp] def node? : Slot → Option Node
  | .node n | .inner n => some n
  | .text _ | .probe _ => none

end Slot

namespace PrintPart

/-- The nodes that are printed for a part. -/
def nodes (p : PrintPart) : List Node := p.slots.filterMap Slot.node?

variable {n : Node} {c : Category}

@[simp] theorem nodes_whole : (whole n).nodes = [n] := rfl

@[simp] theorem nodes_statement : (statement n).nodes = [n] := by
  unfold nodes statement
  split <;> rfl

@[simp] theorem nodes_wrapped : (wrapped c n).nodes = [n] := rfl

@[simp] theorem nodes_opened : (opened c n).nodes = [n] := rfl

@[simp] theorem nodes_body {probe : Option Category} : (body probe n).nodes = [n] := by
  have h : (statement n).slots.filterMap Slot.node? = [n] := nodes_statement
  unfold body
  split
  · rfl
  · rfl
  · dsimp only [nodes]
    rw [List.filterMap_append, List.filterMap_append, h]
    cases probe <;> rfl

@[simp] theorem nodes_arrowBody : (arrowBody n).nodes = [n] := by
  unfold arrowBody
  split <;> rfl

@[simp] theorem nodes_operand : (operand n).nodes = [n] := by
  unfold operand
  split <;> rfl

@[simp] theorem nodes_colon {span : Span} : (colon span).nodes = [] := rfl

@[simp] theorem nodes_missingElse {stop : Nat} : (missingElse stop).nodes = [] := rfl

@[simp] theorem span_whole : (whole n).span = n.region := rfl

@[simp] theorem span_statement : (statement n).span = n.region := rfl

@[simp] theorem span_wrapped : (wrapped c n).span = n.region := rfl

@[simp] theorem span_opened : (opened c n).span = n.region := rfl

@[simp] theorem span_body {probe : Option Category} : (body probe n).span = n.region := by
  unfold body
  split <;> rfl

@[simp] theorem span_arrowBody : (arrowBody n).span = n.region := by
  unfold arrowBody
  split <;> rfl

@[simp] theorem span_operand : (operand n).span = n.region := by
  unfold operand
  split <;> rfl

end PrintPart

namespace Node

theorem flatMap_nodes {f : Node → PrintPart} (hf : ∀ n, (f n).nodes = [n]) (ns : List Node) :
    (ns.map f).flatMap PrintPart.nodes = ns := by
  rw [List.flatMap_map]
  simp [hf]

/-- The parts of a node print some of its children, each once and in their order. -/
theorem nodes_parts_sublist (source : String) (n : Node) :
    List.Sublist ((n.parts source).flatMap PrintPart.nodes) n.children := by
  have hwhole := flatMap_nodes fun n => PrintPart.nodes_whole (n := n)
  have hstatement := flatMap_nodes fun n => PrintPart.nodes_statement (n := n)
  have hwrapped := flatMap_nodes fun n => PrintPart.nodes_wrapped (n := n) (c := .stmt)
  have hcolon (o : Option Span) : (o.toList.map PrintPart.colon).flatMap PrintPart.nodes = [] := by
    cases o <;> rfl
  cases n with
  | ifElse span test yes no => cases no <;> simp [parts, children]
  | labeled span s =>
    simp only [parts, children]
    split <;> simp
  | _ => simp [parts, children, -List.map_append, hwhole, hstatement, hwrapped, hcolon]

/-- Prints a node with its probes from the prints of the nodes below it. -/
def print (source : String) (n : Node) : Printer :=
  .copy source.toList n.region <| (n.parts source).attach.map fun ⟨part, _⟩ =>
    (part.span, .concat <| part.slots.attach.map fun ⟨slot, _⟩ =>
      match slot with
      | .text t => .text t
      | .probe c => .probe c
      | .node c => c.print source
      | .inner c => (c.print source).tail)
termination_by sizeOf n
decreasing_by
  all_goals exact sizeOf_lt_of_mem_children ((nodes_parts_sublist source n).subset
    (List.mem_flatMap.mpr ⟨part, by assumption, List.mem_filterMap.mpr ⟨_, by assumption, rfl⟩⟩))

end Node

namespace Slot

def printer (source : String) : Slot → Printer
  | .text t => .text t
  | .probe c => .probe c
  | .node n => n.print source
  | .inner n => (n.print source).tail

end Slot

def PrintPart.printer (source : String) (p : PrintPart) : Printer :=
  .concat (p.slots.map (Slot.printer source))

theorem Node.print_eq (source : String) (n : Node) : n.print source =
    .copy source.toList n.region ((n.parts source).map fun p => (p.span, p.printer source)) := by
  rw [print]
  refine congrArg _ (Eq.trans (List.map_congr_left ?_) List.attach_map_val)
  rintro ⟨p, hp⟩ -
  refine congrArg (fun printers => (p.span, Printer.concat printers))
    (Eq.trans (List.map_congr_left ?_) List.attach_map_val)
  rintro ⟨slot, hs⟩ -
  cases slot <;> rfl

/-- Prints a program with its probes. -/
def Program.print (p : Program) : String :=
  let parts := p.items.map fun n => (n.region, n.print p.source)
  let (text, _) := Printer.copy p.source.toList ⟨0, p.source.utf8ByteSize⟩ parts {}
  String.ofList text

end Adequacy
