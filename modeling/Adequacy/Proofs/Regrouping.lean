import Adequacy.Proofs.LogicalText

namespace Adequacy

open LogicalTree Mutation

/-- The logical operators that may replace one. -/
def LogicalOp.others (op : LogicalOp) : List LogicalOp := [.and, .or, .coalesce].filter (· ≠ op)

section regroup

variable {source : List Char} {n l r : Node} {op new : LogicalOp} {span token : Span}
  {parent : Option LogicalOp}

namespace Node

/-- An expression with parentheses around it if an operator does not admit it without them. -/
def operandOf (op : LogicalOp) (n : Node) : Node :=
  if n.logicalOp?.all op.admits then n else paren n.span n

theorem logicalTree_operandOf : (n.operandOf op).logicalTree = n.logicalTree := by
  unfold operandOf
  split <;> rfl

theorem isGrouped_operandOf (h : n.isGrouped = true) : (n.operandOf op).isGrouped = true := by
  unfold operandOf
  split <;> exact h

theorem logicalOp?_operandOf : (n.operandOf op).logicalOp?.all op.admits = true := by
  unfold operandOf
  split
  next h => exact h
  next => rfl

/-- A logical expression that has got another operator, as an operand of its parent. -/
def regrouped (parent : Option LogicalOp) (new : LogicalOp) (span : Span) (l r : Node) : Node :=
  let n := logical span new (l.operandOf new) (r.operandOf new)
  if parent.all (·.admits new) then n else paren span n

theorem logicalTree_regrouped :
    (regrouped parent new span l r).logicalTree = (logical span new l r).logicalTree := by
  have htree : (logical span new (l.operandOf new) (r.operandOf new)).logicalTree =
      (logical span new l r).logicalTree := by
    simp only [logicalTree, logicalTree_operandOf]
  unfold regrouped
  split <;> exact htree

theorem isGrouped_regrouped (hl : l.isGrouped = true) (hr : r.isGrouped = true) :
    (regrouped parent new span l r).isGrouped = true := by
  have hn : (logical span new (l.operandOf new) (r.operandOf new)).isGrouped = true :=
    isGrouped_logical.mpr ⟨logicalOp?_operandOf, logicalOp?_operandOf, isGrouped_operandOf hl,
      isGrouped_operandOf hr⟩
  unfold regrouped
  split <;> exact hn

theorem logicalOp?_regrouped {outer : LogicalOp} :
    (regrouped (some outer) new span l r).logicalOp?.all outer.admits = true := by
  unfold regrouped
  split
  next h => exact h
  next => rfl

end Node

namespace Mutation

theorem needsParens_eq (inner outer : LogicalOp) :
    needsParens inner outer = !outer.admits inner := by
  cases inner <;> cases outer <;> rfl

theorem operandParens_eq : operandParens op n = if n.logicalOp?.all op.admits then [] else
    [Edit.insert n.span.start "(", Edit.insert n.span.stop ")"] := by
  unfold operandParens
  cases n.logicalOp? with
  | none => rfl
  | some inner => cases h : op.admits inner <;> simp [needsParens_eq, h]

theorem rewrites_operandParens (h : n.Written source) :
    n.Rewrites source (n.operandOf op) (operandParens op n) := by
  rw [operandParens_eq, Node.operandOf]
  split
  · exact h.rewrites
  · exact Node.rewrites_wrap h.rewrites

theorem regroup_eq {token : Edit} : regroup parent span l r token new =
    if parent.all (·.admits new) then operandParens new l ++ ([token] ++ operandParens new r)
    else [Edit.insert span.start "("] ++
      (operandParens new l ++ ([token] ++ operandParens new r)) ++ [Edit.insert span.stop ")"] := by
  have hwraps : parent.any (needsParens new) = !parent.all (·.admits new) := by
    cases parent with
    | none => rfl
    | some outer => exact needsParens_eq new outer
  simp only [regroup, hwraps]
  cases parent.all (·.admits new) <;> simp

/-- The edits that replace the operator of a logical expression make of its text that of the
expression with the other operator. -/
theorem rewrites_regroup (hl : l.Written source) (htoken : op.Between source l r token)
    (hr : r.Written source) :
    (Node.logical ⟨l.span.start, r.span.stop⟩ op l r).Rewrites source
      (Node.regrouped parent new ⟨l.span.start, r.span.stop⟩ l r)
      (regroup parent ⟨l.span.start, r.span.stop⟩ l r ⟨token, new.text⟩ new) := by
  have hinner : (Node.logical ⟨l.span.start, r.span.stop⟩ op l r).Rewrites source
      (.logical ⟨l.span.start, r.span.stop⟩ new (l.operandOf new) (r.operandOf new))
      (operandParens new l ++ ([⟨token, new.text⟩] ++ operandParens new r)) :=
    Node.rewrites_logical (rewrites_operandParens hl) htoken
      (.edit htoken.reads.span_in new.text) (rewrites_operandParens hr)
  rw [regroup_eq, Node.regrouped]
  split
  · exact hinner
  · exact Node.rewrites_wrap hinner

theorem fuses_symbol (a : Char) :
    fuses a '&' = false ∧ fuses a '|' = false ∧ fuses a '?' = false := by
  simp [fuses, show isWordChar '&' = false by decide, show isWordChar '|' = false by decide,
    show isWordChar '?' = false by decide]

theorem symbol_fuses (a : Char) :
    fuses '&' a = false ∧ fuses '|' a = false ∧ fuses '?' a = false := by
  simp [fuses, show isWordChar '&' = false by decide, show isWordChar '|' = false by decide,
    show isWordChar '?' = false by decide]

/-- Logical operators need no blanks around them. -/
theorem padded_logical (source : String) (token : Span) (op : LogicalOp) :
    padded source token op.text = op.text := by
  have hbefore (before : List Char) : fusesTexts before op.text.toList = false := by
    unfold fusesTexts
    cases before.getLast? with
    | none => rfl
    | some a => cases op <;> simp [LogicalOp.text, fuses_symbol a]
  have hafter (after : List Char) : fusesTexts op.text.toList after = false := by
    unfold fusesTexts
    cases after.head? with
    | none => cases op <;> rfl
    | some a => cases op <;> simp [LogicalOp.text, symbol_fuses a]
  simp [padded, hbefore, hafter]

theorem binary?_logical (op : LogicalOp) :
    Catalog.binary? op.text = some (.logicalOp, op.others.map LogicalOp.text) := by
  cases op <;> rfl

theorem isEquality_logical (op : LogicalOp) : Catalog.isEquality op.text = false := by
  cases op <;> decide

theorem ofText?_text (op : LogicalOp) : LogicalOp.ofText? op.text = some op := by
  cases op <;> rfl

/-- A logical expression whose operator is found has one mutation for each of the others. -/
theorem ofNode_logical {source : String} {s : Standing}
    (h : Token.find? source l.span.stop op.text = some token) :
    ofNode source s (.logical span op l r) = op.others.map fun new =>
      ⟨.logicalOp, span, regroup s.parent span l r ⟨token, new.text⟩ new⟩ := by
  simp only [ofNode, operator, binary?_logical, h, isEquality_logical, Bool.not_false,
    Bool.or_true, if_true, List.map_map, Function.comp_def, padded_logical, ofText?_text]

end Mutation

end regroup

namespace Node

variable {n m : Node} {s t : Standing} {v : Standing × Node} {assertion : String}

theorem mem_visits_self (h : n.isCallOf assertion = false) : (s, n) ∈ n.visits assertion s := by
  rw [visits, h]
  exact List.mem_cons_self

theorem mem_visits_of_placed (h : n.isCallOf assertion = false) (hm : (t, m) ∈ n.placed s)
    (hv : v ∈ m.visits assertion t) : v ∈ n.visits assertion s := by
  rw [visits, h]
  exact List.mem_cons_of_mem _ (List.mem_flatMap.mpr ⟨⟨_, hm⟩, List.mem_attach _ _, hv⟩)

end Node

/-- What stands around a part of a logical expression. -/
inductive LogicalFrame where
  | left (span : Span) (op : LogicalOp) (right : Node)
  | right (span : Span) (op : LogicalOp) (left : Node)
  | paren (span : Span)

namespace LogicalFrame

def wrap : LogicalFrame → Node → Node
  | left span op r, n => .logical span op n r
  | right span op l, n => .logical span op l n
  | paren span, n => .paren span n

/-- A logical expression from one of its parts and what stands around it, the outermost first. -/
def plug (frames : List LogicalFrame) (n : Node) : Node := frames.foldr wrap n

/-- Where the part in a frame stands. -/
def standing : LogicalFrame → Standing
  | left _ op _ | right _ op _ => { parent := some op }
  | paren _ => {}

/-- Where a part of a logical expression stands, by where the whole stands. -/
def standingIn (s : Standing) : List LogicalFrame → Standing
  | [] => s
  | f :: frames => standingIn f.standing frames

variable {f : LogicalFrame} {frames : List LogicalFrame} {n m : Node} {s : Standing}
  {source : List Char} {p : Patch} {assertion : String} {outer : LogicalOp}

/-- No part of a logical expression is left out of the visits. -/
theorem mem_visits_plug (h : n.isCallOf assertion = false) :
    (standingIn s frames, n) ∈ (plug frames n).visits assertion s := by
  induction frames generalizing s with
  | nil => exact Node.mem_visits_self h
  | cons f frames ih =>
    have hcall : (plug (f :: frames) n).isCallOf assertion = false := by cases f <;> rfl
    have hplaced : (f.standing, plug frames n) ∈ (plug (f :: frames) n).placed s := by
      cases f <;> simp [plug, wrap, standing, Node.placed, Node.children]
    exact Node.mem_visits_of_placed hcall hplaced ih

theorem written_of_plug (h : (plug frames n).Written source) : n.Written source := by
  induction frames with
  | nil => exact h
  | cons f frames ih =>
    cases f with
    | left =>
      cases h with
      | operand hn => cases hn
      | logical _ hl => exact ih hl
    | right =>
      cases h with
      | operand hn => cases hn
      | logical _ _ _ hr => exact ih hr
    | paren =>
      cases h with
      | operand hn => cases hn
      | paren _ _ he => exact ih he

/-- What a patch makes of a part of a logical expression is made in the whole. -/
theorem rewrites_plug (h : (plug frames n).Written source) (hp : n.Rewrites source m p) :
    (plug frames n).Rewrites source (plug frames m) p := by
  induction frames with
  | nil => exact hp
  | cons f frames ih =>
    cases f with
    | left span op r =>
      cases h with
      | operand hn => cases hn
      | logical hspan hl htoken hr =>
        subst hspan
        let f : LogicalFrame := .left ⟨(plug frames n).span.start, r.span.stop⟩ op r
        have hall : (plug (f :: frames) n).Rewrites source (plug (f :: frames) m) (p ++ ([] ++ [])) :=
          Node.rewrites_logical (ih hl) htoken (.reads htoken.reads) hr.rewrites
        rwa [List.append_nil, List.append_nil] at hall
    | right =>
      cases h with
      | operand hn => cases hn
      | logical hspan hl htoken hr =>
        subst hspan
        exact Node.rewrites_logical hl.rewrites htoken (.reads htoken.reads) (ih hr)
    | paren =>
      cases h with
      | operand hn => cases hn
      | paren hopening hfront he hback hclosing =>
        exact Node.rewrites_paren hopening hfront (ih he) hback hclosing

theorem logicalTree_plug (h : n.logicalTree = m.logicalTree) :
    (plug frames n).logicalTree = (plug frames m).logicalTree := by
  induction frames with
  | nil => exact h
  | cons f frames ih => cases f <;> simpa [plug, wrap, Node.logicalTree] using ih

theorem isGrouped_of_plug (h : (plug frames n).isGrouped = true) : n.isGrouped = true := by
  induction frames with
  | nil => exact h
  | cons f frames ih =>
    cases f with
    | left => exact ih (Node.isGrouped_logical.mp h).2.2.1
    | right => exact ih (Node.isGrouped_logical.mp h).2.2.2
    | paren => exact ih h

/-- A part of a logical expression may be put in place of another one if the operator that it
becomes an operand of admits it. -/
theorem admits_plug (hm : ∀ outer ∈ (standingIn s frames).parent,
      m.logicalOp?.all outer.admits = true) (hs : s.parent = some outer)
    (h : (plug frames n).logicalOp?.all outer.admits = true) :
    (plug frames m).logicalOp?.all outer.admits = true := by
  cases frames with
  | nil => exact hm outer hs
  | cons f frames =>
    cases f with
    | left => exact h
    | right => exact h
    | paren => rfl

theorem isGrouped_plug (h : (plug frames n).isGrouped = true) (hm : m.isGrouped = true)
    (hop : ∀ outer ∈ (standingIn s frames).parent, m.logicalOp?.all outer.admits = true) :
    (plug frames m).isGrouped = true := by
  -- Only the innermost frame meets the part itself. What any other one meets is the frame inside
  -- it, whose operator stays.
  induction frames generalizing s with
  | nil => exact hm
  | cons f frames ih =>
    cases f with
    | left =>
      obtain ⟨hlop, hrop, hl, hr⟩ := Node.isGrouped_logical.mp h
      exact Node.isGrouped_logical.mpr ⟨admits_plug hop rfl hlop, hrop, ih hl hop, hr⟩
    | right =>
      obtain ⟨hlop, hrop, hl, hr⟩ := Node.isGrouped_logical.mp h
      exact Node.isGrouped_logical.mpr ⟨hlop, admits_plug hop rfl hrop, hl, ih hr hop⟩
    | paren => exact ih h hop

end LogicalFrame

open LogicalFrame

/-- A patch leaves the text around an expression as it is, and what it makes of the text of the
expression is read as a logical expression that denotes the tree, up to the grouping of runs of one
operator. -/
def Patch.Denotes (source : String) (e : Node) (p : Patch) (tree : LogicalTree) : Prop :=
  ∃ front text back q words t,
    source.toList = front ++ (e.span.chars source.toList ++ back) ∧ byteSize front = e.span.start ∧
    p.apply source = .ok (String.ofList (front ++ (text ++ back)), q) ∧
    Spells source.toList words text ∧ read? words = some t ∧ t.Regroups tree

theorem Node.Rewrites.denotes {source : String} {e m : Node} {p : Patch}
    (h : e.Rewrites source.toList m p) (hm : m.isGrouped = true) :
    p.Denotes source e m.logicalTree := by
  obtain ⟨text, hturns, hspells⟩ := h
  obtain ⟨front, back, q, hsource, hstart, happly⟩ := hturns.apply
  obtain ⟨t, hread, hgroups⟩ := Node.read?_words hm
  exact ⟨front, text, back, q, m.words, t, hsource, hstart, happly, hspells, hread, hgroups⟩

namespace Mutation

variable {source assertion : String} {s : Standing} {frames : List LogicalFrame} {span own : Span}
  {op : LogicalOp} {l r : Node}

theorem denotes_regroup (hw : (plug frames (.logical span op l r)).Written source.toList)
    (hg : (plug frames (.logical span op l r)).isGrouped = true)
    (hown : op.Between source.toList l r own) (new : LogicalOp) :
    Patch.Denotes source (plug frames (.logical span op l r))
      (regroup (standingIn s frames).parent span l r ⟨own, new.text⟩ new)
      (plug frames (.logical span new l r)).logicalTree := by
  obtain ⟨-, -, hgl, hgr⟩ := Node.isGrouped_logical.mp (isGrouped_of_plug hg)
  cases written_of_plug hw with
  | operand hn => cases hn
  | logical hspan hl _ hr =>
    subst hspan
    let m : Node := .regrouped (standingIn s frames).parent new ⟨l.span.start, r.span.stop⟩ l r
    have hrewrites : Node.Rewrites source.toList _ (plug frames m) _ :=
      rewrites_plug hw (rewrites_regroup hl hown hr)
    have hadmits : ∀ outer ∈ (standingIn s frames).parent,
        m.logicalOp?.all outer.admits = true := by
      intro outer houter
      rw [Option.mem_def] at houter
      simp only [m, houter]
      exact Node.logicalOp?_regrouped
    have hgrouped : (plug frames m).isGrouped = true :=
      isGrouped_plug hg (Node.isGrouped_regrouped hgl hgr) hadmits
    have hdenotes := hrewrites.denotes hgrouped
    rwa [logicalTree_plug Node.logicalTree_regrouped] at hdenotes

/-- Each logical expression in a larger one, whose operator is found where it stands, has one
mutation for each of the other operators. The text of the whole then denotes what it did before
with exactly this operator replaced. -/
theorem logical_regroups (hw : (plug frames (.logical span op l r)).Written source.toList)
    (hg : (plug frames (.logical span op l r)).isGrouped = true)
    (hfind : Token.find? source l.span.stop op.text = some own)
    (hown : op.Between source.toList l r own) :
    (standingIn s frames, Node.logical span op l r) ∈
        (plug frames (.logical span op l r)).visits assertion s ∧
      List.Forall₂ (fun new m => m.kind = .logicalOp ∧ m.node = span ∧
          m.patch.Denotes source (plug frames (.logical span op l r))
            (plug frames (.logical span new l r)).logicalTree)
        op.others (ofNode source (standingIn s frames) (.logical span op l r)) := by
  refine ⟨mem_visits_plug rfl, ?_⟩
  rw [ofNode_logical hfind, List.forall₂_map_right_iff, List.forall₂_same]
  exact fun new _ => ⟨rfl, rfl, denotes_regroup hw hg hown new⟩

/-- Two operands, one of them in parentheses, and an operator between them. -/
def inner (op : LogicalOp) : Node :=
  .logical ⟨5, 13⟩ op (.name ⟨5, 6⟩ "b") (.paren ⟨10, 13⟩ (.name ⟨11, 12⟩ "c"))

def inDisjunction : List LogicalFrame := [.right ⟨0, 13⟩ .or (.name ⟨0, 1⟩ "a")]

def nested : Program :=
  ⟨"a || b && (c)", false, [.other ⟨0, 13⟩ .expressionStatement [plug inDisjunction (inner .and)]]⟩

set_option maxRecDepth 4000 in
theorem parse_nested : Program.parse nested.source = .ok nested := by
  unfold Program.parse
  cbv

theorem gapped_nested {start : Nat} (h : start ∈ [1, 4, 6, 9]) :
    Gapped nested.source.toList start (start + 1) := by
  have hall : ∀ start ∈ [1, 4, 6, 9], Span.In nested.source.toList ⟨start, start + 1⟩ ∧
      Span.chars nested.source.toList ⟨start, start + 1⟩ = [' '] := by decide
  obtain ⟨hin, hchars⟩ := hall start h
  exact ⟨hin, hchars ▸ .blank rfl .nil⟩

theorem between_nested : LogicalOp.Between nested.source.toList .and (.name ⟨5, 6⟩ "b")
    (.paren ⟨10, 13⟩ (.name ⟨11, 12⟩ "c")) ⟨7, 9⟩ :=
  ⟨gapped_nested (by decide), ⟨by decide, by decide⟩, gapped_nested (by decide)⟩

theorem written_nested : (plug inDisjunction (inner .and)).Written nested.source.toList := by
  have hoperand {span : Span} {text : String} (hin : span.In nested.source.toList)
      (hold : startsOld (span.chars nested.source.toList) = false) :
      (Node.name span text).Written nested.source.toList := .operand rfl hin hold
  have hnone {offset : Nat} (h : offset ∈ [11, 12]) :
      Gapped nested.source.toList offset offset := by
    have hall : ∀ offset ∈ [11, 12], Span.In nested.source.toList ⟨offset, offset⟩ ∧
        Span.chars nested.source.toList ⟨offset, offset⟩ = [] := by decide
    obtain ⟨hin, hchars⟩ := hall offset h
    exact ⟨hin, hchars ▸ .nil⟩
  have hparen : (Node.paren ⟨10, 13⟩ (.name ⟨11, 12⟩ "c")).Written nested.source.toList :=
    .paren ⟨by decide, by decide⟩ (hnone (by decide)) (hoperand (by decide) (by decide))
      (hnone (by decide)) ⟨by decide, by decide⟩
  have hinner : (inner .and).Written nested.source.toList :=
    .logical rfl (hoperand (by decide) (by decide)) between_nested hparen
  have houter : LogicalOp.Between nested.source.toList .or (.name ⟨0, 1⟩ "a") (inner .and)
      ⟨2, 4⟩ :=
    ⟨gapped_nested (by decide), ⟨by decide, by decide⟩, gapped_nested (by decide)⟩
  exact .logical rfl (hoperand (by decide) (by decide)) houter hinner

theorem logical_regroups_of_nested : Program.parse nested.source = .ok nested ∧
    List.Forall₂ (fun new m => m.kind = .logicalOp ∧ m.node = ⟨5, 13⟩ ∧
        m.patch.Denotes nested.source (plug inDisjunction (inner .and))
          (plug inDisjunction (inner new)).logicalTree)
      [.or, .coalesce] (ofNode nested.source { parent := some .or } (inner .and)) := by
  have hfind : Token.find? nested.source 6 "&&" = some ⟨7, 9⟩ := by cbv
  exact ⟨parse_nested, (@logical_regroups nested.source "__assert__" {} _ _ _ _ _ _ written_nested
    (by decide) hfind between_nested).2⟩

/-- A line that is a comment only where nothing but blanks stands in front of it. -/
def commented : Program :=
  ⟨"--> x\na && b || c", false, [.other ⟨0, 17⟩ .expressionStatement
    [.logical ⟨0, 17⟩ .or (.logical ⟨0, 12⟩ .and (.name ⟨0, 7⟩ "a") (.name ⟨11, 12⟩ "b"))
      (.name ⟨16, 17⟩ "c")]]⟩

set_option maxRecDepth 4000 in
theorem parse_commented : Program.parse commented.source = .ok commented := by
  unfold Program.parse
  cbv

theorem parse_opened :
    Program.parse "(--> x\na ?? b) || c" = .error ⟨.expected "," "ident", ⟨7, 8⟩⟩ := by
  unfold Program.parse
  cbv

/-- The operator is found where it stands, but behind a parenthesis the line is no comment. -/
theorem not_logical_regroups_of_commented :
    Program.parse commented.source = .ok commented ∧
      Token.find? commented.source 7 "&&" = some ⟨8, 10⟩ ∧
      ∃ v ∈ commented.visits "__assert__", ∃ m ∈ ofNode commented.source v.1 v.2, ∃ text q,
        v.2.logicalOp? = some .and ∧ m.kind = .logicalOp ∧
        m.patch.apply commented.source = .ok (text, q) ∧ ∀ p, Program.parse text ≠ .ok p := by
  let inner : Node := .logical ⟨0, 12⟩ .and (.name ⟨0, 7⟩ "a") (.name ⟨11, 12⟩ "b")
  have hfind : Token.find? commented.source 7 "&&" = some ⟨8, 10⟩ := by cbv
  let place : Standing := { parent := some .or }
  have hv : (place, inner) ∈ commented.visits "__assert__" := by
    have hall : commented.visits "__assert__" = [({}, commented.items.head!),
        ({}, .logical ⟨0, 17⟩ .or inner (.name ⟨16, 17⟩ "c")), (place, inner),
        ({ parent := some .and }, .name ⟨0, 7⟩ "a"), ({ parent := some .and }, .name ⟨11, 12⟩ "b"),
        (place, .name ⟨16, 17⟩ "c")] := by cbv
    rw [hall]
    exact .tail _ (.tail _ (.head _))
  have hm : ⟨.logicalOp, ⟨0, 12⟩, [⟨⟨0, 0⟩, "("⟩, ⟨⟨8, 10⟩, "??"⟩, ⟨⟨12, 12⟩, ")"⟩]⟩ ∈
      ofNode commented.source place inner := by
    rw [ofNode_logical hfind]
    exact List.mem_map_of_mem (a := LogicalOp.coalesce) (by decide)
  have happly : Patch.apply [⟨⟨0, 0⟩, "("⟩, ⟨⟨8, 10⟩, "??"⟩, ⟨⟨12, 12⟩, ")"⟩] commented.source =
      .ok ("(--> x\na ?? b) || c", [⟨⟨0, 1⟩, ""⟩, ⟨⟨9, 11⟩, "&&"⟩, ⟨⟨13, 14⟩, ""⟩]) := by cbv
  refine ⟨parse_commented, hfind, _, hv, _, hm, _, _, rfl, rfl, happly, fun p hp => ?_⟩
  rw [parse_opened] at hp
  cases hp

end Mutation

end Adequacy
