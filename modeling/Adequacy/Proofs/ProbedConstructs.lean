import Adequacy.Proofs.ProbeCalls
import Adequacy.Proofs.ProbeSites

namespace Adequacy

namespace Node

/-- The children that the instrumentation leaves as they are: the test of a case, and the left side
of a loop over the members of something. -/
def skippedChildren : Node → List Node
  | switchCase _ test _ => test.toList
  | forEach _ left _ _ => [left]
  | _ => []

/-- The children that the instrumentation goes into. -/
def reachedChildren : Node → List Node
  | switchCase _ _ body => body
  | forEach _ _ right body => [right, body]
  | n => n.children

theorem children_perm (n : Node) : n.children.Perm (n.reachedChildren ++ n.skippedChildren) := by
  cases n with
  | switchCase span test body => exact List.perm_append_comm
  | forEach span left right body => exact @List.perm_append_comm _ [left] [right, body]
  | _ => simp [skippedChildren, reachedChildren]

theorem mem_children_of_mem_reachedChildren {c n : Node} (h : c ∈ n.reachedChildren) :
    c ∈ n.children :=
  n.children_perm.mem_iff.mpr (List.mem_append_left _ h)

/-- A node and all that is below it. -/
def nodes (n : Node) : List Node :=
  n :: n.children.attach.flatMap fun ⟨c, _⟩ => c.nodes
termination_by sizeOf n
decreasing_by exact sizeOf_lt_of_mem_children (by assumption)

/-- A node and what the instrumentation reaches below it. -/
def reached (n : Node) : List Node :=
  n :: n.reachedChildren.attach.flatMap fun ⟨c, _⟩ => c.reached
termination_by sizeOf n
decreasing_by
  exact sizeOf_lt_of_mem_children (mem_children_of_mem_reachedChildren (by assumption))

theorem nodes_eq (n : Node) : n.nodes = n :: n.children.flatMap nodes := by
  rw [nodes]
  simp

theorem reached_eq (n : Node) : n.reached = n :: n.reachedChildren.flatMap reached := by
  rw [reached]
  simp

/-- What is reached, and what is below the children that are left out, is all there is. -/
theorem nodes_perm (n : Node) :
    n.nodes.Perm (n.reached ++ (n.reached.flatMap skippedChildren).flatMap nodes) := by
  induction n using induct with
  | step n ih =>
    have hreached : (n.reachedChildren.flatMap nodes).Perm (n.reachedChildren.flatMap reached ++
        ((n.reachedChildren.flatMap reached).flatMap skippedChildren).flatMap nodes) := by
      rw [List.flatMap_assoc, List.flatMap_assoc]
      refine List.Perm.trans ?_ (List.flatMap_append_perm _ _ _).symm
      exact List.Perm.flatMap_left _ fun c hc => by
        simpa only [List.flatMap_assoc] using ih c (mem_children_of_mem_reachedChildren hc)
    rw [nodes_eq, reached_eq, List.cons_append, List.flatMap_cons, List.flatMap_append]
    refine List.Perm.cons n ?_
    calc (n.children.flatMap nodes).Perm
          (n.reachedChildren.flatMap nodes ++ n.skippedChildren.flatMap nodes) := by
          rw [← List.flatMap_append]
          exact n.children_perm.flatMap_right nodes
      List.Perm _ _ := hreached.append_right _
      List.Perm _ _ := by
          rw [List.append_assoc]
          exact List.perm_append_comm.append_left _

/-- The function that a node is. -/
def functions : Node → List Node
  | func span params body => [func span params body]
  | arrow span params body => [arrow span params body]
  | _ => []

/-- The statements of a sequence that are carried out where they stand. -/
def executed (ns : List Node) : List Node := ns.filter fun s => !s.isDeclaration

/-- The statement that a body is unless it is a block. -/
def bodyStatements (n : Node) : List Node := if n.isBlock then [] else executed [n]

/-- What the statement probes of a node report: initialized declarators, default values, the
returned expressions of arrows, and statements. -/
def statements : Node → List Node
  | declarator span target (some init) => [declarator span target (some init)]
  | defaulted _ _ value => [value]
  | arrow _ _ body => if body.isBlock then [] else [body]
  | block _ body | staticBlock _ body | switchCase _ _ body => executed body
  | ifElse _ _ yes no => bodyStatements yes ++ no.toList.flatMap bodyStatements
  | labeled _ s => if s.isLoop then [] else bodyStatements s
  | whileLoop _ _ s | doWhile _ s _ | forLoop _ _ _ _ s | forEach _ _ _ s => bodyStatements s
  | _ => []

/-- What the branch probes of a node report: a choice once for each of its two ways, a case once,
and the operands of a logical expression that are none themselves. -/
def branches : Node → List Node
  | ifElse span test yes no => [ifElse span test yes no, ifElse span test yes no]
  | conditional span test yes no => [conditional span test yes no, conditional span test yes no]
  | switchCase span test body => [switchCase span test body]
  | logical _ _ left right => [left.peel, right.peel].filter fun e => e.logicalOp?.isNone
  | _ => []

def probed (c : Category) (n : Node) : List Node :=
  match c with
  | .func => n.functions
  | .stmt => n.statements
  | .branch => n.branches

end Node

namespace SiteStep

/-- The construct that a step probes. -/
def probed? (c : Category) : SiteStep → Option Node
  | site category construct _ => if category = c then some construct else none
  | below _ => none

def child? : SiteStep → Option Node
  | site .. => none
  | below c => some c

variable {c : Category} {n e : Node}

@[simp] theorem child?_comp_below : child? ∘ below = some := rfl

@[simp] theorem probed?_comp_below : probed? c ∘ below = fun _ => none := rfl

@[simp] theorem child?_statements (ns : List Node) : (statements ns).filterMap child? = ns := by
  induction ns with
  | nil => rfl
  | cons s ns ih =>
    rw [statements, List.flatMap_cons, List.filterMap_append, ← statements, ih]
    split <;> rfl

theorem probed?_statements (ns : List Node) : (statements ns).filterMap (probed? c) =
    if c = .stmt then Node.executed ns else [] := by
  induction ns with
  | nil => simp [statements, Node.executed]
  | cons s ns ih =>
    rw [statements, List.flatMap_cons, List.filterMap_append, ← statements, ih]
    cases hs : s.isDeclaration <;> cases c <;> simp [probed?, Node.executed, hs]

@[simp] theorem child?_body (n : Node) : (body n).filterMap child? = [n] := by
  unfold body
  split
  · rfl
  · exact child?_statements [n]

theorem probed?_body (n : Node) : (body n).filterMap (probed? c) =
    if c = .stmt then n.bodyStatements else [] := by
  unfold body Node.bodyStatements
  split
  · simp [probed?]
  · exact probed?_statements [n]

@[simp] theorem child?_wrapped {k : Category} : (wrapped k n e).filterMap child? = [e] := rfl

theorem probed?_wrapped {k : Category} : (wrapped k n e).filterMap (probed? c) =
    if k = c then [n] else [] := by
  cases k <;> cases c <;> rfl

@[simp] theorem child?_operand (n : Node) : (operand n).filterMap child? = [n] := by
  unfold operand
  split <;> rfl

theorem probed?_operand (n : Node) : (operand n).filterMap (probed? c) =
    if c = .branch then [n.peel].filter fun e => e.logicalOp?.isNone else [] := by
  unfold operand
  cases h : n.peel.logicalOp? <;> cases c <;> simp [wrapped, probed?, h]

/-- The way through a node goes on in the children that are reached. -/
theorem child?_ofNode (source : String) (n : Node) :
    (ofNode source n).filterMap child? = n.reachedChildren := by
  cases n with
  | arrow span params body =>
    simp only [ofNode]
    split <;> simp [Node.reachedChildren, Node.children, List.filterMap_cons, child?]
  | ifElse span test yes no =>
    cases no <;> simp [ofNode, Node.reachedChildren, Node.children, List.filterMap_cons, child?]
  | labeled span s =>
    simp only [ofNode]
    split <;> simp [Node.reachedChildren, Node.children, child?]
  | declarator span target init =>
    cases init <;> simp [ofNode, Node.reachedChildren, Node.children, child?]
  | _ => simp [ofNode, Node.reachedChildren, Node.children, List.filterMap_cons, child?]

/-- The probes of a node itself are for the constructs that it holds. -/
theorem probed?_ofNode (c : Category) (source : String) (n : Node) :
    (ofNode source n).filterMap (probed? c) = n.probed c := by
  cases n with
  | arrow span params body =>
    simp only [ofNode]
    split <;> cases c <;> simp_all [Node.probed, Node.functions, Node.statements, Node.branches,
      List.filterMap_cons, probed?, probed?_wrapped]
  | ifElse span test yes no =>
    cases no <;> cases c <;> simp [ofNode, Node.probed, Node.functions, Node.statements,
      Node.branches, List.filterMap_cons, probed?, probed?_body]
  | labeled span s =>
    simp only [ofNode]
    split <;> cases c <;> simp_all [Node.probed, Node.functions, Node.statements, Node.branches,
      probed?, probed?_body]
  | declarator span target init => cases init <;> cases c <;> rfl
  | logical span op left right =>
    simp only [ofNode, List.filterMap_append, probed?_operand]
    cases c with
    | branch =>
      rw [if_pos rfl, if_pos rfl, ← List.filter_append]
      rfl
    | _ => rfl
  | _ =>
    cases c <;> simp [ofNode, Node.probed, Node.functions, Node.statements, Node.branches,
      List.filterMap_cons, probed?, probed?_wrapped, probed?_statements, probed?_body]

/-- What a step meets is its own probe, or what is below a child. -/
theorem constructs_sites (c : Category) (source : String) (step : SiteStep) :
    ((step.sites source).filter (·.category = c)).map (·.construct) =
      (step.probed? c).toList ++ step.child?.toList.flatMap fun n =>
        ((n.sites source).filter (·.category = c)).map (·.construct) := by
  cases step with
  | site k construct place => by_cases h : k = c <;> simp [sites, probed?, child?, h]
  | below n => simp [sites, probed?, child?]

end SiteStep

/-- The probes in a node are those of the nodes that are reached in it. -/
theorem Node.constructs_perm (c : Category) (source : String) (n : Node) :
    (((n.sites source).filter (·.category = c)).map (·.construct)).Perm
      (n.reached.flatMap (Node.probed c)) := by
  induction n using induct with
  | step n ih =>
    rw [sites_eq, List.filter_flatMap, List.map_flatMap, reached_eq, List.flatMap_cons,
      ← SiteStep.probed?_ofNode c source n, ← SiteStep.child?_ofNode source n, List.flatMap_assoc]
    simp only [SiteStep.constructs_sites]
    refine (List.flatMap_append_perm _ _ _).symm.trans ?_
    rw [List.filterMap_eq_flatMap_toList, List.filterMap_eq_flatMap_toList, List.flatMap_assoc]
    refine List.Perm.append_left _ (List.Perm.flatMap_left _ fun step hstep => ?_)
    cases hc : step.child? with
    | none => exact .nil
    | some child =>
      have hchild : child ∈ n.reachedChildren := by
        rw [← SiteStep.child?_ofNode source n]
        exact List.mem_filterMap.mpr ⟨step, hstep, hc⟩
      simpa using ih child (mem_children_of_mem_reachedChildren hchild)

namespace Program

/-- The nodes of a program. -/
def nodes (p : Program) : List Node := p.items.flatMap Node.nodes

/-- The nodes that the instrumentation reaches. -/
def reached (p : Program) : List Node := p.items.flatMap Node.reached

/-- The tests of cases and left sides of loops that are left as they are. -/
def skipped (p : Program) : List Node := p.reached.flatMap Node.skippedChildren

/-- The ids of a category are those of the constructs that the reached nodes hold, each with its
range. What is not reached is below a test of a case or the left side of a loop. -/
theorem target_reached (p : Program) (c : Category) :
    p.nodes.Perm (p.reached ++ p.skipped.flatMap Node.nodes) ∧
    ∃ constructs : List Node, constructs.Perm (p.reached.flatMap (Node.probed c)) ∧
      p.target c = constructs.zipIdx.map fun x =>
        (x.2, (LineIndex.ofText p.source).clamped x.1.span) := by
  constructor
  · rw [nodes, skipped, reached, List.flatMap_assoc, List.flatMap_assoc]
    refine List.Perm.trans ?_ (List.flatMap_append_perm _ _ _).symm
    exact List.Perm.flatMap_left _ fun n _ => by
      simpa only [List.flatMap_assoc] using n.nodes_perm
  · refine ⟨(p.sitesOf c).map (·.construct), ?_, ?_⟩
    · rw [sitesOf, sites, reached, List.filter_flatMap, List.map_flatMap, List.flatMap_assoc]
      exact List.Perm.flatMap_left _ fun n _ => n.constructs_perm c p.source
    · rw [target_eq, List.zipIdx_map, List.map_map]
      rfl

/-- A switch with a function as the test of a case. -/
def testedByFunction : Program :=
  ⟨"switch (a) \x7b case () => 1: \x7d", false, [.switch ⟨0, 28⟩ (.name ⟨8, 9⟩ "a")
    [.switchCase ⟨13, 26⟩ (some (.arrow ⟨18, 25⟩ [] (.literal ⟨24, 25⟩ .number))) []]]⟩

set_option maxRecDepth 4000 in
theorem parse_testedByFunction :
    Program.parse testedByFunction.source = .ok testedByFunction := by
  unfold Program.parse
  cbv

/-- The function has no id, as the test of its case is not reached. -/
theorem not_target_nodes_of_testedByFunction : ¬ ∀ p : Program, Program.parse p.source = .ok p →
    ∃ constructs : List Node, constructs.Perm (p.nodes.flatMap (Node.probed .func)) ∧
      p.target .func = constructs.zipIdx.map fun x =>
        (x.2, (LineIndex.ofText p.source).clamped x.1.span) := by
  intro h
  obtain ⟨constructs, hperm, htarget⟩ := h testedByFunction parse_testedByFunction
  have hnone : testedByFunction.target .func = [] := by cbv
  have hone : testedByFunction.nodes.flatMap (Node.probed .func) ≠ [] := by
    simp [testedByFunction, nodes, Node.nodes_eq, Node.children, Node.probed, Node.functions]
  rw [hnone] at htarget
  have hempty : constructs = [] := by simpa using htarget.symm
  exact hone (List.nil_perm.mp (hempty ▸ hperm))

end Program

end Adequacy
