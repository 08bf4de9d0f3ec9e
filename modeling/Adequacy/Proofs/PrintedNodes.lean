import Adequacy.Proofs.ItemTexts
import Adequacy.Proofs.ProbedConstructs

namespace Adequacy

namespace Slot

/-- What a slot prints apart from fixed texts: a probe, or a node. -/
def met? : Slot → Option (Category ⊕ Node)
  | .text _ => none
  | .probe c => some (.inl c)
  | .node n | .inner n => some (.inr n)

end Slot

/-- What a step of the way through a node meets: a probe, or a node. -/
def SiteStep.kind : SiteStep → Category ⊕ Node
  | site c _ _ => .inl c
  | below n => .inr n

namespace PrintPart

variable {n construct : Node} {c : Category}

def met (p : PrintPart) : List (Category ⊕ Node) := p.slots.filterMap Slot.met?

theorem met_wrapped : (wrapped c n).met = (SiteStep.wrapped c construct n).map SiteStep.kind := rfl

theorem met_statement (s : Node) : (statement s).met =
    (if s.isDeclaration then [.below s] else [.site .stmt s s.span.start, .below s] :
      List SiteStep).map SiteStep.kind := by
  unfold statement
  cases s.isDeclaration <;> rfl

theorem met_statements (ns : List Node) : (ns.map statement).flatMap met =
    (SiteStep.statements ns).map SiteStep.kind := by
  rw [SiteStep.statements, List.map_flatMap, List.flatMap_map]
  exact List.flatMap_congr fun s _ => met_statement s

theorem met_wholes (ns : List Node) : (ns.map whole).flatMap met =
    (ns.map SiteStep.below).map SiteStep.kind := by
  rw [List.flatMap_map, List.map_map]
  exact List.map_eq_flatMap.symm

theorem met_body (probe : Option Category) (n : Node) :
    (body probe n).met = probe.toList.map .inl ++ (SiteStep.body n).map SiteStep.kind := by
  by_cases hb : n.isBlock = true
  · obtain ⟨_, _, rfl⟩ := Node.eq_block_of_isBlock hb
    cases probe <;> rfl
  · rw [Bool.not_eq_true] at hb
    have hs : (statement n).slots.filterMap Slot.met? = (SiteStep.body n).map SiteStep.kind := by
      rw [SiteStep.body, hb]
      exact (List.append_nil _).symm.trans (met_statements [n])
    rw [body_of_isBlock_eq_false _ hb, met, List.filterMap_append, List.filterMap_append, hs]
    cases probe <;> exact List.append_nil _

theorem met_arrowBody : (arrowBody n).met =
    (.site .func construct (SiteStep.bodyStart n) ::
      if n.isBlock then [.below n] else SiteStep.wrapped .stmt n n).map SiteStep.kind := by
  by_cases hb : n.isBlock = true
  · obtain ⟨_, _, rfl⟩ := Node.eq_block_of_isBlock hb
    rfl
  · rw [Bool.not_eq_true] at hb
    rw [arrowBody_of_isBlock_eq_false hb, hb]
    rfl

theorem met_operand : (operand n).met = (SiteStep.operand n).map SiteStep.kind := by
  unfold operand SiteStep.operand
  split <;> rfl

end PrintPart

namespace Node

variable {source : String} {n c : Node}

/-- The parts of a node print its probes and what is below it in the order of the way through it. -/
theorem met_parts (h : n.Nested source) :
    (n.parts source).flatMap PrintPart.met = (SiteStep.ofNode source n).map SiteStep.kind := by
  have hbody (s : Node) : [PrintPart.body none s].flatMap PrintPart.met =
      (SiteStep.body s).map SiteStep.kind :=
    (List.append_nil _).trans (PrintPart.met_body none s)
  cases n with
  | func span params body =>
    rw [parts, SiteStep.ofNode, List.flatMap_append, List.map_append, PrintPart.met_wholes]
    rfl
  | arrow span params body =>
    rw [parts, SiteStep.ofNode, List.flatMap_append, List.map_append, PrintPart.met_wholes,
      List.flatMap_singleton, PrintPart.met_arrowBody]
  | declarator span target init => cases init <;> rfl
  | defaulted span target value => rfl
  | block span body => exact PrintPart.met_statements body
  | staticBlock span body => exact PrintPart.met_statements body
  | switchCase span test body =>
    obtain ⟨colon, hcolon, -⟩ := isProper_switchCase.mp h.isProper
    rw [parts, hcolon, List.flatMap_append, PrintPart.met_statements]
    rfl
  | ifElse span test yes no =>
    have hwhole : (PrintPart.whole test).met = [.inr test] := rfl
    have hmissing : (PrintPart.missingElse span.stop).met = [.inl .branch] := rfl
    cases no <;> simp [parts, SiteStep.ofNode, SiteStep.kind, hwhole, hmissing, PrintPart.met_body]
  | conditional span test yes no => rfl
  | logical span op left right =>
    rw [SiteStep.ofNode, List.map_append, ← PrintPart.met_operand, ← PrintPart.met_operand]
    exact congrArg _ (List.append_nil _)
  | labeled span s =>
    simp only [parts, SiteStep.ofNode]
    split
    · rfl
    · exact hbody s
  | whileLoop span test s => exact congrArg (_ :: ·) (hbody s)
  | doWhile span s test => exact congrArg (_ :: ·) (hbody s)
  | forLoop span init test step s =>
    rw [parts, SiteStep.ofNode, List.flatMap_append, hbody, PrintPart.met_wholes]
    exact List.map_append.symm
  | forEach span left right s => exact congrArg (_ :: ·) (hbody s)
  | _ => exact PrintPart.met_wholes _

end Node

/-- What edits put in a text is in what they make of it. -/
theorem Patch.infix_splice {e : Edit} {p : Patch} (h : e ∈ p) (rest : List Char) (copied : Nat) :
    e.text.toList <:+: splice rest copied p := by
  induction p generalizing rest copied with
  | nil => cases h
  | cons d later ih =>
    rw [splice]
    rcases List.mem_cons.mp h with rfl | h
    · exact List.infix_append _ _ _
    · exact (ih h _ _).trans (List.suffix_append _ _).isInfix

/-- Edits behind the first character of a text leave it in front. -/
theorem Patch.splice_cons {p : Patch} {c : Char} {copied : Nat}
    (h : ∀ e ∈ p, copied + c.utf8Size ≤ e.span.start ∧ e.span.start ≤ e.span.stop)
    (rest : List Char) :
    splice (c :: rest) copied p = c :: splice rest (copied + c.utf8Size) p := by
  cases p with
  | nil => rfl
  | cons e later =>
    obtain ⟨hstart, hstop⟩ := h e (.head _)
    rw [splice, splice, takeBytes, dropBytes, if_pos (by omega), if_pos (by omega), Nat.sub_sub,
      Nat.sub_sub]
    rfl

namespace Printer

theorem infix_concat (ps : List Printer) (q : Printer) (qs : List Printer) (counts : ProbeCounts) :
    (q (concat ps counts).2).1 <:+: (concat (ps ++ q :: qs) counts).1 := by
  rw [concat_append]
  exact (List.prefix_append _ _).isInfix.trans (List.suffix_append _ _).isInfix

theorem mem_edits (xs ys : List (Span × Printer)) (s : Span) (q : Printer) (counts : ProbeCounts) :
    ⟨s, String.ofList (q (edits xs counts).2).1⟩ ∈ (edits (xs ++ (s, q) :: ys) counts).1 := by
  induction xs generalizing counts with
  | nil => exact .head _
  | cons x xs ih => exact .tail _ (ih _)

/-- What is printed for a part is in the copy of a text. -/
theorem infix_copy (text : List Char) (span : Span) (xs ys : List (Span × Printer)) (s : Span)
    (q : Printer) (counts : ProbeCounts) :
    (q (edits xs counts).2).1 <:+: (copy text span (xs ++ (s, q) :: ys) counts).1 := by
  have hmem := (Patch.inOrder_perm _).mem_iff.mpr (mem_edits xs ys s q counts)
  have hinfix := Patch.infix_splice hmem (span.chars text) span.start
  rwa [String.toList_ofList] at hinfix

/-- If what is printed for the parts goes behind the first character of a text, it is in the rest of
the copy. -/
theorem infix_tail_copy {text rest : List Char} {span : Span} {c : Char}
    (htext : span.chars text = c :: rest) (xs ys : List (Span × Printer)) (s : Span) (q : Printer)
    (h : ∀ x ∈ xs ++ (s, q) :: ys, span.start + c.utf8Size ≤ x.1.start ∧ x.1.start ≤ x.1.stop)
    (counts : ProbeCounts) :
    (q (edits xs counts).2).1 <:+: (copy text span (xs ++ (s, q) :: ys) counts).1.tail := by
  have hmem := (Patch.inOrder_perm _).mem_iff.mpr (mem_edits xs ys s q counts)
  have hinfix := Patch.infix_splice hmem rest (span.start + c.utf8Size)
  have hall (e) (he : e ∈ Patch.inOrder (edits (xs ++ (s, q) :: ys) counts).1) :
      span.start + c.utf8Size ≤ e.span.start ∧ e.span.start ≤ e.span.stop := by
    have hspan := List.mem_map_of_mem (f := Edit.span) ((Patch.inOrder_perm _).mem_iff.mp he)
    rw [span_edits] at hspan
    obtain ⟨x, hx, heq⟩ := List.mem_map.mp hspan
    exact heq ▸ h x hx
  have hcopy : (copy text span (xs ++ (s, q) :: ys) counts).1 = c :: Patch.splice rest
      (span.start + c.utf8Size) (Patch.inOrder (edits (xs ++ (s, q) :: ys) counts).1) := by
    rw [copy, htext]
    exact Patch.splice_cons hall rest
  rw [hcopy]
  rwa [String.toList_ofList] at hinfix

end Printer

namespace Mark

/-- Each probe that marks make is counted. -/
theorem get_counted (counts : ProbeCounts) (marks : List Mark) (c : Category) :
    (counted counts marks).get c = counts.get c + (probesOf c marks).length := by
  induction marks generalizing counts with
  | nil => rfl
  | cons m marks ih =>
    rw [counted, ih, Piece.get_render, length_items_of_pieces, probesOf_cons, List.length_append,
      Nat.add_assoc]

end Mark

namespace Node

/-- The sites of a category in a node. -/
def sitesOf (source : String) (c : Category) (n : Node) : List ProbeSite :=
  (n.sites source).filter (·.category = c)

variable {source : String} {n e : Node}

theorem get_print (h : n.Everywhere (Nested source)) (counts : ProbeCounts) (c : Category) :
    (n.print source counts).2.get c = counts.get c + (n.sitesOf source c).length := by
  have hprobes : Mark.probesOf c (n.marks source) = (n.sitesOf source c).map ProbeSite.marked := by
    rw [Mark.probesOf, ← List.filter_flatMap, probes_marks, List.filter_map]
    rfl
  rw [(printed_of_nested h).renders.print_eq, Mark.get_counted, hprobes, List.length_map]

end Node

/-- How many probes of a category something has that a node meets. -/
def probeCount (source : String) (c : Category) : Category ⊕ Node → Nat
  | .inl k => if k = c then 1 else 0
  | .inr n => (n.sitesOf source c).length

theorem SiteStep.length_sites (source : String) (c : Category) (steps : List SiteStep) :
    ((steps.flatMap (SiteStep.sites source)).filter (·.category = c)).length =
      ((steps.map SiteStep.kind).map (probeCount source c)).sum := by
  induction steps with
  | nil => rfl
  | cons step steps ih =>
    have hstep : ((step.sites source).filter (·.category = c)).length =
        probeCount source c step.kind := by
      cases step with
      | site k construct place => by_cases h : k = c <;> simp [sites, kind, probeCount, h]
      | below n => rfl
    rw [List.flatMap_cons, List.filter_append, List.length_append, ih, hstep]
    rfl

namespace Slot

variable {source : String} {c : Category}

/-- The nodes in a list of what is met. -/
def AllNested (source : String) (met : List (Category ⊕ Node)) : Prop :=
  ∀ n, .inr n ∈ met → n.Everywhere (Node.Nested source)

theorem get_printer {s : Slot} (h : AllNested source s.met?.toList) (counts : ProbeCounts) :
    (s.printer source counts).2.get c =
      counts.get c + (s.met?.toList.map (probeCount source c)).sum := by
  cases s with
  | text t => rfl
  | probe k => exact ProbeCounts.get_bump counts c k
  | node n => exact Node.get_print (h n (.head _)) counts c
  | inner n => exact Node.get_print (h n (.head _)) counts c

theorem get_concat {slots : List Slot} (h : AllNested source (slots.filterMap met?))
    (counts : ProbeCounts) : (Printer.concat (slots.map (Slot.printer source)) counts).2.get c =
      counts.get c + ((slots.filterMap met?).map (probeCount source c)).sum := by
  induction slots generalizing counts with
  | nil => rfl
  | cons s slots ih =>
    rw [List.filterMap_eq_flatMap_toList, List.flatMap_cons,
      ← List.filterMap_eq_flatMap_toList] at h ⊢
    have hs := get_printer (c := c) (s := s) (fun n hn => h n (List.mem_append_left _ hn)) counts
    have hlater := ih fun n hn => h n (List.mem_append_right _ hn)
    rw [List.map_cons, Printer.concat, List.map_append, List.sum_append, ← Nat.add_assoc, ← hs]
    exact hlater _

end Slot

namespace PrintPart

variable {source : String} {n m : Node} {c : Category}

theorem get_edits {parts : List PrintPart} (h : Slot.AllNested source (parts.flatMap met))
    (counts : ProbeCounts) :
    (Printer.edits (parts.map fun p => (p.span, p.printer source)) counts).2.get c =
      counts.get c + ((parts.flatMap met).map (probeCount source c)).sum := by
  induction parts generalizing counts with
  | nil => rfl
  | cons p parts ih =>
    rw [List.flatMap_cons] at h ⊢
    have hp := Slot.get_concat (c := c) (fun n hn => h n (List.mem_append_left _ hn)) counts
    have hlater := ih fun n hn => h n (List.mem_append_right _ hn)
    rw [List.map_cons, Printer.edits, List.map_append, List.sum_append, ← Nat.add_assoc, met, ← hp]
    exact hlater _

/-- What parts meet is met in one of their slots. -/
theorem exists_slot {parts : List PrintPart} {xs ys : List (Category ⊕ Node)} {m : Category ⊕ Node}
    (h : parts.flatMap met = xs ++ m :: ys) : ∃ ps p qs ss s ts, parts = ps ++ p :: qs ∧
      p.slots = ss ++ s :: ts ∧ s.met? = some m ∧
      ps.flatMap met ++ ss.filterMap Slot.met? = xs := by
  induction parts generalizing xs with
  | nil => simp at h
  | cons p parts ih =>
    have hlater {zs : List (Category ⊕ Node)} (hz : parts.flatMap met = zs ++ m :: ys)
        (hx : p.met ++ zs = xs) : ∃ ps q qs ss s ts, p :: parts = ps ++ q :: qs ∧
          q.slots = ss ++ s :: ts ∧ s.met? = some m ∧
          ps.flatMap met ++ ss.filterMap Slot.met? = xs := by
      obtain ⟨ps, q, qs, ss, s, ts, rfl, hslots, hs, rfl⟩ := ih hz
      exact ⟨p :: ps, q, qs, ss, s, ts, rfl, hslots, hs, by simp [← hx]⟩
    rw [List.flatMap_cons, List.append_eq_append_iff] at h
    rcases h with ⟨zs, hx, hz⟩ | ⟨zs, hp, hz⟩
    · exact hlater hz hx.symm
    · cases zs with
      | nil => exact @hlater [] hz.symm (by simpa using hp)
      | cons z zs =>
        obtain ⟨rfl, -⟩ := List.cons.inj hz
        obtain ⟨ss, rest, hslots, hxs, hrest⟩ := List.filterMap_eq_append_iff.mp hp
        obtain ⟨ss', s, ts, rfl, hnone, hs, -⟩ := List.filterMap_eq_cons_iff.mp hrest
        refine ⟨[], p, parts, ss ++ ss', s, ts, rfl, by simp [hslots], hs, ?_⟩
        rw [List.filterMap_append, hxs, List.filterMap_eq_nil_iff.mpr hnone]
        simp

/-- Of all nodes only blocks are printed without their first character. -/
def Unopened (p : PrintPart) : Prop := ∀ m, .inner m ∈ p.slots → m.isBlock = true

theorem unopened_whole : (whole n).Unopened := by simp [Unopened, whole]

theorem unopened_wrapped : (wrapped c n).Unopened := by simp [Unopened, wrapped]

theorem unopened_statement : (statement n).Unopened := by
  unfold Unopened statement
  split <;> simp

theorem unopened_operand : (operand n).Unopened := by
  unfold operand
  split
  · exact unopened_whole
  · exact unopened_wrapped

theorem unopened_opened (h : n.isBlock = true) : (opened c n).Unopened := by
  simpa [Unopened, opened] using h

theorem unopened_body (probe : Option Category) : (body probe n).Unopened := by
  by_cases hb : n.isBlock = true
  · obtain ⟨_, _, rfl⟩ := Node.eq_block_of_isBlock hb
    cases probe with
    | none => exact unopened_whole
    | some c => exact unopened_opened rfl
  · rw [Bool.not_eq_true] at hb
    rw [body_of_isBlock_eq_false _ hb]
    have hs := unopened_statement (n := n)
    cases probe <;> simpa [Unopened] using hs

theorem unopened_arrowBody : (arrowBody n).Unopened := by
  by_cases hb : n.isBlock = true
  · obtain ⟨_, _, rfl⟩ := Node.eq_block_of_isBlock hb
    exact unopened_opened rfl
  · rw [Bool.not_eq_true] at hb
    rw [arrowBody_of_isBlock_eq_false hb]
    simp [Unopened]

end PrintPart

namespace Node

open PrintPart

variable {source : String} {n m e : Node}

theorem unopened_parts (h : n.Nested source) : ∀ p ∈ n.parts source, p.Unopened := by
  have hwholes {ns : List Node} : ∀ p ∈ ns.map whole, p.Unopened := by
    simp [unopened_whole]
  have hstatements {ns : List Node} : ∀ p ∈ ns.map PrintPart.statement, p.Unopened := by
    simp [unopened_statement]
  cases n with
  | func span params body =>
    exact List.forall_mem_append.mpr ⟨hwholes, by simpa using unopened_opened h.isProper⟩
  | arrow span params body =>
    exact List.forall_mem_append.mpr ⟨hwholes, by simpa using unopened_arrowBody⟩
  | block span body => exact hstatements
  | staticBlock span body => exact hstatements
  | switchCase span test body =>
    refine List.forall_mem_append.mpr ⟨?_, hstatements⟩
    simp [Unopened, colon]
  | ifElse span test yes no =>
    cases no <;> simp [parts, unopened_whole, unopened_body]
    simp [Unopened, missingElse]
  | labeled span s =>
    simp only [parts, List.forall_mem_singleton]
    split
    · exact unopened_whole
    · exact unopened_body none
  | forLoop span init test step s =>
    exact List.forall_mem_append.mpr ⟨hwholes, by simpa using unopened_body none⟩
  | declarator | defaulted | conditional | logical | whileLoop | doWhile | forEach =>
    simp [parts, unopened_whole, unopened_wrapped, unopened_operand, unopened_body]
  | _ => exact hwholes

/-- A slot with a node that the instrumentation goes into. The counts in front of it have grown by
the sites in front of that node, and what it prints is in the print of the whole. -/
structure HasSlot (source : String) (n m : Node) (counts : ProbeCounts) (s : Slot)
    (next : ProbeCounts) (front back : List ProbeSite) : Prop where
  met_eq : s.met? = some (.inr m)
  sites_eq : n.sites source = front ++ (m.sites source ++ back)
  get_eq : ∀ c, next.get c = counts.get c + (front.filter (·.category = c)).length
  infix_print : (s.printer source next).1 <:+: (n.print source counts).1
  infix_tail : n.isBlock = true → (s.printer source next).1 <:+: (n.print source counts).1.tail
  isBlock : s = .inner m → m.isBlock = true

theorem tail_parts (h : n.Nested source) (hc : ∀ c ∈ n.children, c.Nested source)
    (hb : n.isBlock = true) : ∃ rest, n.region.chars source.toList = '\x7b' :: rest ∧
      ∀ p ∈ n.parts source, n.region.start + ('\x7b' : Char).utf8Size ≤ p.span.start ∧
        p.span.start ≤ p.span.stop := by
  obtain ⟨span, body, rfl⟩ := eq_block_of_isBlock hb
  obtain ⟨hhead, hbody⟩ := isProper_block.mp h.isProper
  obtain ⟨rest, hchars⟩ := List.head?_eq_some_iff.mp hhead
  refine ⟨rest, hchars, ?_⟩
  simp only [parts, List.forall_mem_map, span_statement]
  intro s hs
  have hstart := hbody s hs
  rw [← region_eq_span (h.isFunc rfl s hs)] at hstart
  exact ⟨hstart, (hc s hs).region_in.start_le_stop⟩

theorem below_mem_ofNode (hm : m ∈ n.reachedChildren) :
    SiteStep.below m ∈ SiteStep.ofNode source n := by
  rw [← SiteStep.child?_ofNode source n] at hm
  obtain ⟨step, hstep, hchild⟩ := List.mem_filterMap.mp hm
  cases step with
  | site => cases hchild
  | below c => exact Option.some.inj hchild ▸ hstep

theorem allNested_kinds (h : n.Everywhere (Nested source)) {steps : List SiteStep}
    (hs : steps ⊆ SiteStep.ofNode source n) :
    Slot.AllNested source (steps.map SiteStep.kind) := by
  intro c hc
  obtain ⟨step, hstep, hkind⟩ := List.mem_map.mp hc
  cases step with
  | site => cases hkind
  | below d => exact Sum.inr.inj hkind ▸ h.child (SiteStep.mem_children_of_below (hs hstep))

theorem exists_hasSlot (h : n.Everywhere (Nested source)) (hm : m ∈ n.reachedChildren)
    (counts : ProbeCounts) :
    ∃ s next front back, n.HasSlot source m counts s next front back := by
  have hbelow : SiteStep.below m ∈ SiteStep.ofNode source n := below_mem_ofNode hm
  obtain ⟨before, after, hsteps⟩ := List.append_of_mem hbelow
  have hmet := met_parts h.here
  rw [hsteps, List.map_append, List.map_cons] at hmet
  obtain ⟨ps, p, qs, ss, s, ts, hparts, hslots, hs, hfront⟩ := exists_slot hmet
  have hnested := allNested_kinds h (hsteps ▸ List.subset_append_left before _)
  rw [← hfront] at hnested
  let next := (Printer.concat (ss.map (Slot.printer source))
    (Printer.edits (ps.map fun p => (p.span, p.printer source)) counts).2).2
  have hlist : (n.parts source).map (fun p => (p.span, p.printer source)) =
      ps.map (fun p => (p.span, p.printer source)) ++ (p.span, p.printer source) ::
        qs.map fun p => (p.span, p.printer source) := by
    rw [hparts, List.map_append, List.map_cons]
  have hpart (counts : ProbeCounts) :
      (s.printer source (Printer.concat (ss.map (Slot.printer source)) counts).2).1 <:+:
        (p.printer source counts).1 := by
    rw [PrintPart.printer, hslots, List.map_append, List.map_cons]
    exact Printer.infix_concat ..
  refine ⟨s, next, before.flatMap (SiteStep.sites source), after.flatMap (SiteStep.sites source),
    hs, ?_, fun c => ?_, ?_, fun hb => ?_, ?_⟩
  · rw [Node.sites_eq, hsteps, List.flatMap_append, List.flatMap_cons]
    rfl
  · rw [SiteStep.length_sites, ← hfront, List.map_append, List.sum_append, ← Nat.add_assoc,
      ← get_edits fun n hn => hnested n (List.mem_append_left _ hn)]
    exact Slot.get_concat (fun n hn => hnested n (List.mem_append_right _ hn)) _
  · rw [print_eq, hlist]
    exact (hpart _).trans (Printer.infix_copy ..)
  · obtain ⟨rest, hchars, hspans⟩ := tail_parts h.here (fun c hc => (h.child hc).here) hb
    rw [print_eq, hlist]
    refine (hpart _).trans (Printer.infix_tail_copy hchars _ _ _ _ ?_ _)
    rw [← hlist, List.forall_mem_map]
    exact hspans
  · rintro rfl
    exact unopened_parts h.here p (by simp [hparts]) m (by simp [hslots])

/-- A node is printed in a text with counts that have grown by the sites in front of it. -/
def PrintedIn (source : String) (e : Node) (counts : ProbeCounts) (sites : List ProbeSite)
    (text : List Char) : Prop :=
  ∃ next front back, sites = front ++ (e.sites source ++ back) ∧
    (∀ c, next.get c = counts.get c + (front.filter (·.category = c)).length) ∧
    (e.print source next).1 <:+: text

/-- What is printed for a node stands in what is printed for the nodes above it. -/
theorem printedIn_of_mem_reached (h : n.Everywhere (Nested source)) (he : e ∈ n.reached)
    (hb : e.isBlock = false) (counts : ProbeCounts) :
    e.PrintedIn source counts (n.sites source) (n.print source counts).1 ∧
      (n.isBlock = true →
        e.PrintedIn source counts (n.sites source) (n.print source counts).1.tail) := by
  induction n using induct generalizing counts with
  | step n ih =>
    rw [reached_eq, List.mem_cons, List.mem_flatMap] at he
    rcases he with rfl | ⟨m, hm, he⟩
    · refine ⟨⟨counts, [], [], by simp, fun c => rfl, List.infix_refl _⟩, fun h => ?_⟩
      rw [hb] at h
      cases h
    · obtain ⟨s, next, front, back, hs⟩ := exists_hasSlot h hm counts
      have hc := mem_children_of_mem_reachedChildren hm
      obtain ⟨hprint, htail⟩ := ih m hc (h.child hc) he next
      have hin : e.PrintedIn source next (m.sites source) (s.printer source next).1 := by
        have hmet := hs.met_eq
        cases s with
        | node m' => exact Sum.inr.inj (Option.some.inj hmet) ▸ hprint
        | inner m' =>
          obtain rfl := Sum.inr.inj (Option.some.inj hmet)
          exact htail (hs.isBlock rfl)
        | _ => cases hmet
      have hall {text : List Char} (htext : (s.printer source next).1 <:+: text) :
          e.PrintedIn source counts (n.sites source) text := by
        obtain ⟨last, front', back', hsites, hget, hinfix⟩ := hin
        refine ⟨last, front ++ front', back' ++ back, ?_, fun c => ?_, hinfix.trans htext⟩
        · rw [hs.sites_eq, hsites]
          simp
        · rw [hget, hs.get_eq, List.filter_append, List.length_append, Nat.add_assoc]
      exact ⟨hall hs.infix_print, fun hb => hall (hs.infix_tail hb)⟩

end Node

namespace Program

variable {p : Program} {e : Node}

/-- A node that holds the items of a program and nothing else. -/
def root (p : Program) : Node := .other ⟨0, p.source.utf8ByteSize⟩ .sequence p.items

theorem nested_root (h : p.Nested) : p.root.Everywhere (Node.Nested p.source) := by
  refine .intro ⟨whole_in p.source, fun n hn => ⟨Nat.zero_le _, ?_⟩, h.parted, nofun, rfl⟩ h.items
  exact le_of_isBoundary (h.items n hn).here.region_in.stop_isBoundary

theorem print_root (p : Program) : p.print.toList = (p.root.print p.source {}).1 := by
  have hparts : (p.root.parts p.source).map (fun q => (q.span, q.printer p.source)) =
      p.items.map fun n => (n.region, n.print p.source) := by
    simp [root, Node.parts, Node.children, PrintPart.printer, PrintPart.whole, Slot.printer]
  rw [Node.print_eq, hparts]
  simp [print, root, Node.region, Node.span]

theorem sites_root (p : Program) : p.root.sites p.source = p.sites := by
  rw [Node.sites_eq]
  exact List.flatMap_map ..

theorem mem_reached_root (he : e ∈ p.reached) : e ∈ p.root.reached := by
  rw [Node.reached_eq]
  exact List.mem_cons_of_mem _ he

/-- What is printed for a node that the instrumentation reaches stands in the print of the
program. -/
theorem printedIn_of_mem_reached (h : p.Nested) (he : e ∈ p.reached) (hb : e.isBlock = false) :
    e.PrintedIn p.source {} p.sites p.print.toList := by
  rw [← sites_root, print_root]
  exact (Node.printedIn_of_mem_reached (nested_root h) (mem_reached_root he) hb {}).1

end Program

end Adequacy
