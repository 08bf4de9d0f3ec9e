import Adequacy.Proofs.Marks
import Mathlib

namespace Adequacy

/-- A place that a probe is put at, and the construct whose range it reports. -/
structure ProbeSite where
  category : Category
  construct : Node
  place : Nat

/-- What is met on the way through a node: a probe, or a child with all that is below it. -/
inductive SiteStep where
  | site (category : Category) (construct : Node) (place : Nat)
  | below (c : Node)

namespace SiteStep

/-- The statements of a sequence are probed, but for declarations. -/
def statements (body : List Node) : List SiteStep :=
  body.flatMap fun s =>
    if s.isDeclaration then [.below s] else [.site .stmt s s.span.start, .below s]

/-- A probed expression, with the construct that its probe reports. -/
def wrapped (category : Category) (construct e : Node) : List SiteStep :=
  [.site category construct e.span.start, .below e]

/-- A body that is no block is a statement of the block that it becomes. -/
def body (n : Node) : List SiteStep := if n.isBlock then [.below n] else statements [n]

/-- Where the first probe of a body is put. -/
def bodyStart (n : Node) : Nat := if n.isBlock then n.span.start + 1 else n.span.start

def operand (n : Node) : List SiteStep :=
  if n.peel.logicalOp?.isSome then [.below n] else wrapped .branch n.peel n

/-- The way through a node: the constructs that are probed, and the children in between. -/
def ofNode (source : String) (n : Node) : List SiteStep :=
  match n with
  | .func _ params body => params.map .below ++ [.site .func n (body.span.start + 1), .below body]
  | .arrow _ params body =>
    params.map .below ++
      .site .func n (bodyStart body) ::
      if body.isBlock then [.below body] else wrapped .stmt body body
  | .declarator _ target init => .below target :: init.toList.flatMap (wrapped .stmt n)
  | .defaulted _ target value => .below target :: wrapped .stmt value value
  | .block _ body | .staticBlock _ body => statements body
  | .switchCase span test body =>
    .site .branch n (ProbeStep.caseStart source span test) :: statements body
  | .ifElse span test yes no =>
    .below test :: .site .branch n (bodyStart yes) :: body yes ++
      .site .branch n (no.elim span.stop bodyStart) :: no.toList.flatMap body
  | .conditional _ test yes no => .below test :: wrapped .branch n yes ++ wrapped .branch n no
  | .logical _ _ left right => operand left ++ operand right
  | .labeled _ s => if s.isLoop then [.below s] else body s
  | .whileLoop _ test s | .doWhile _ s test => .below test :: body s
  | .forLoop _ init test step s =>
    (init.toList ++ test.toList ++ step.toList).map .below ++ body s
  | .forEach _ _ right s => .below right :: body s
  | n => n.children.map .below

end SiteStep

/-- A probe as it is marked: its category, the span that it reports, and its offset. -/
abbrev MarkedProbe := Category × Span × Nat

def ProbeSite.marked (s : ProbeSite) : MarkedProbe := (s.category, s.construct.span, s.place)

/-- The probe that a piece is at an offset. -/
def Piece.marked? (offset : Nat) : Piece → Option MarkedProbe
  | .probe c item => some (c, item, offset)
  | .text _ => none

def Mark.probes (m : Mark) : List MarkedProbe := m.pieces.filterMap (Piece.marked? m.offset)

/-- The probes that a step of the instrumentation makes, or the child that it visits. -/
def ProbeStep.met : ProbeStep → List (MarkedProbe ⊕ Node)
  | mark m => m.probes.map .inl
  | visit c => [.inr c]

def SiteStep.met : SiteStep → MarkedProbe ⊕ Node
  | site category construct place => .inl (category, construct.span, place)
  | below c => .inr c

namespace SiteStep

variable {n e : Node} {c : Category} {item : Span}

theorem met_visits (ns : List Node) :
    (ProbeStep.visits ns).flatMap ProbeStep.met = (ns.map below).map met := by
  rw [ProbeStep.visits, List.flatMap_map, List.map_map]
  exact List.map_eq_flatMap.symm

theorem met_statements (ns : List Node) :
    (ProbeStep.statements ns).flatMap ProbeStep.met = (statements ns).map met := by
  rw [ProbeStep.statements, statements, List.flatMap_assoc, List.map_flatMap]
  refine List.flatMap_congr fun s _ => ?_
  split <;> rfl

theorem met_operand : (ProbeStep.operand n).flatMap ProbeStep.met = (operand n).map met := by
  unfold ProbeStep.operand operand
  split <;> rfl

theorem met_body (b : Node) :
    (ProbeStep.body (some (c, n.span)) b).flatMap ProbeStep.met =
      (site c n (bodyStart b) :: body b).map met := by
  by_cases hb : b.isBlock = true
  · obtain ⟨_, _, rfl⟩ := Node.eq_block_of_isBlock hb
    rfl
  · rw [Bool.not_eq_true] at hb
    rw [ProbeStep.body_of_isBlock_eq_false _ hb, List.flatMap_append, List.flatMap_append,
      met_statements, bodyStart, body, hb]
    exact List.append_nil _

theorem met_plainBody (b : Node) :
    (ProbeStep.body none b).flatMap ProbeStep.met = (body b).map met := by
  by_cases hb : b.isBlock = true
  · obtain ⟨_, _, rfl⟩ := Node.eq_block_of_isBlock hb
    rfl
  · rw [Bool.not_eq_true] at hb
    rw [ProbeStep.body_of_isBlock_eq_false _ hb, List.flatMap_append, List.flatMap_append,
      met_statements, body, hb]
    exact List.append_nil _

theorem met_arrow (source : String) (span : Span) (params : List Node) (b : Node) :
    (ProbeStep.ofNode source (.arrow span params b)).flatMap ProbeStep.met =
      (ofNode source (.arrow span params b)).map met := by
  unfold ProbeStep.ofNode ofNode
  dsimp only
  rw [List.flatMap_append, List.map_append, met_visits]
  refine congrArg _ ?_
  split
  · rfl
  next hb =>
    have hb : b.isBlock = false := by
      rw [← Bool.not_eq_true]
      intro h
      obtain ⟨_, _, rfl⟩ := Node.eq_block_of_isBlock h
      exact hb _ _ rfl
    rw [bodyStart, hb]
    rfl

/-- The steps of the instrumentation make the probes of a node where they are met. -/
theorem met_ofNode (source : String) (n : Node) :
    (ProbeStep.ofNode source n).flatMap ProbeStep.met = (ofNode source n).map met := by
  cases n with
  | func span params body =>
    rw [ProbeStep.ofNode, ofNode, List.flatMap_append, List.map_append, met_visits]
    rfl
  | arrow span params body => exact met_arrow source span params body
  | declarator span target init => cases init <;> rfl
  | defaulted span target value => rfl
  | block span body => exact met_statements body
  | staticBlock span body => exact met_statements body
  | switchCase span test body =>
    exact congrArg (_ :: ·) (met_statements body)
  | ifElse span test yes no =>
    have hbody := met_body (c := .branch) (n := .ifElse span test yes no)
    unfold ProbeStep.ofNode ofNode
    dsimp only
    rw [List.flatMap_append, List.map_append]
    refine congr (congrArg _ (congrArg (_ :: ·) (hbody yes))) ?_
    cases no with
    | none => rfl
    | some no => exact (hbody no).trans (by simp)
  | conditional span test yes no => rfl
  | logical span op left right =>
    rw [ProbeStep.ofNode, ofNode, List.flatMap_append, List.map_append, met_operand, met_operand]
  | labeled span s =>
    simp only [ProbeStep.ofNode, ofNode]
    split
    · rfl
    · exact met_plainBody s
  | whileLoop span test s => exact congrArg (_ :: ·) (met_plainBody s)
  | doWhile span s test => exact congrArg (_ :: ·) (met_plainBody s)
  | forLoop span init test step s =>
    rw [ProbeStep.ofNode, ofNode, List.flatMap_append, List.map_append, met_visits, met_plainBody]
  | forEach span left right s => exact congrArg (_ :: ·) (met_plainBody s)
  | _ => exact met_visits _

end SiteStep

theorem SiteStep.mem_children_of_below {source : String} {c n : Node}
    (h : SiteStep.below c ∈ SiteStep.ofNode source n) : c ∈ n.children := by
  have hmet : Sum.inr c ∈ (SiteStep.ofNode source n).map SiteStep.met :=
    List.mem_map.mpr ⟨_, h, rfl⟩
  rw [← SiteStep.met_ofNode] at hmet
  obtain ⟨step, hstep, hc⟩ := List.mem_flatMap.mp hmet
  cases step with
  | mark m => simp [ProbeStep.met] at hc
  | visit c' =>
    simp only [ProbeStep.met, List.mem_singleton, Sum.inr.injEq] at hc
    subst hc
    exact ProbeStep.mem_children_of_visit hstep

/-- The places of all probes in a node, in the order of the traversal. -/
def Node.sites (source : String) (n : Node) : List ProbeSite :=
  (SiteStep.ofNode source n).attach.flatMap fun ⟨step, h⟩ =>
    match step, h with
    | .site category item place, _ => [⟨category, item, place⟩]
    | .below c, _ => c.sites source
termination_by sizeOf n
decreasing_by exact sizeOf_lt_of_mem_children (SiteStep.mem_children_of_below (by assumption))

def SiteStep.sites (source : String) : SiteStep → List ProbeSite
  | site category construct place => [⟨category, construct, place⟩]
  | below c => c.sites source

theorem Node.sites_eq (source : String) (n : Node) :
    n.sites source = (SiteStep.ofNode source n).flatMap (SiteStep.sites source) := by
  rw [sites, List.flatMap_def, List.flatMap_def]
  refine congrArg _ (Eq.trans (List.map_congr_left ?_) List.attach_map_val)
  rintro ⟨step, h⟩ -
  cases step <;> rfl

/-- The marks of a node make its probes, each at its place for its construct. -/
theorem Node.probes_marks (source : String) (n : Node) :
    (n.marks source).flatMap Mark.probes = (n.sites source).map ProbeSite.marked := by
  induction n using induct with
  | step n ih =>
    let probes : MarkedProbe ⊕ Node → List MarkedProbe :=
      Sum.elim (fun p => [p]) fun c => (c.marks source).flatMap Mark.probes
    have hmarks (step : ProbeStep) :
        (step.marks source).flatMap Mark.probes = step.met.flatMap probes := by
      cases step with
      | mark m => simp [ProbeStep.marks, ProbeStep.met, probes, List.flatMap_map]
      | visit c => simp [ProbeStep.marks, ProbeStep.met, probes]
    have hsites (step) (h : step ∈ SiteStep.ofNode source n) :
        (step.sites source).map ProbeSite.marked = probes step.met := by
      cases step with
      | site category construct place => rfl
      | below c => exact (ih c (SiteStep.mem_children_of_below h)).symm
    rw [marks_eq, sites_eq, List.flatMap_assoc, List.map_flatMap,
      List.flatMap_congr hsites, List.flatMap_congr fun step _ => hmarks step,
      ← List.flatMap_assoc, SiteStep.met_ofNode, List.flatMap_map]

end Adequacy
