import Adequacy.CoverSet
import Adequacy.Probe

namespace Adequacy

/-- The marks that a node and all that is visited below it get, in the order they are made. -/
def Node.marks (source : String) (n : Node) : List Mark :=
  (ProbeStep.ofNode source n).attach.flatMap fun ⟨step, h⟩ =>
    match step, h with
    | .mark m, _ => [m]
    | .visit c, _ => c.marks source
termination_by sizeOf n
decreasing_by exact sizeOf_lt_of_mem_children (ProbeStep.mem_children_of_visit (by assumption))

/-- How many items of each category have been numbered. -/
structure ProbeCounts where
  func : Nat := 0
  stmt : Nat := 0
  branch : Nat := 0
  deriving DecidableEq, Repr

namespace ProbeCounts

def get (c : ProbeCounts) : Category → Nat
  | .func => c.func
  | .stmt => c.stmt
  | .branch => c.branch

def bump (c : ProbeCounts) : Category → ProbeCounts
  | .func => { c with func := c.func + 1 }
  | .stmt => { c with stmt := c.stmt + 1 }
  | .branch => { c with branch := c.branch + 1 }

end ProbeCounts

/-- The call that reports an item. -/
def Category.probe (c : Category) (id : Nat) : String := s!"__cov__.{c.name}.add({id})"

namespace Piece

/-- The text of pieces whose probes are numbered on from the given counts. -/
def render (counts : ProbeCounts) : List Piece → String × ProbeCounts
  | [] => ("", counts)
  | .text t :: rest =>
    let (later, counts) := render counts rest
    (t ++ later, counts)
  | .probe c _ :: rest =>
    let (later, next) := render (counts.bump c) rest
    (c.probe (counts.get c) ++ later, next)

/-- The item that a probe of the category reports. -/
def item? (c : Category) : Piece → Option Span
  | .probe k item => if k = c then some item else none
  | .text _ => none

end Piece

namespace Mark

/-- The insertions that marks stand for, their probes numbered in order. -/
def insertions (counts : ProbeCounts) : List Mark → List Insertion
  | [] => []
  | m :: rest =>
    let (text, counts) := Piece.render counts m.pieces
    ⟨m.offset, text⟩ :: insertions counts rest

/-- The items of a category that are reported, in the order of their ids. -/
def items (c : Category) (marks : List Mark) : List Span :=
  marks.flatMap fun m => m.pieces.filterMap (Piece.item? c)

end Mark

/-- A program with probes, and what they report. -/
structure Instrumentation where
  program : String
  func : CoverTarget
  stmt : CoverTarget
  branch : CoverTarget

namespace Program

/-- The marks of a whole program. Its own statements get no probes. -/
def marks (p : Program) : List Mark := p.items.flatMap (Node.marks p.source)

def insertions (p : Program) : List Insertion := Mark.insertions {} p.marks

/-- The items of a category with the ids that their probes report. -/
def target (p : Program) (c : Category) : CoverTarget :=
  let index := LineIndex.ofText p.source
  CoverTarget.ofRanges ((Mark.items c p.marks).map index.clamped)

/-- The program with its probes. `none` if one would fall inside a character. -/
def instrument? (p : Program) : Option Instrumentation :=
  (Insertion.render? p.source p.insertions).map fun text =>
    { program := text, func := p.target .func, stmt := p.target .stmt, branch := p.target .branch }

end Program

end Adequacy
