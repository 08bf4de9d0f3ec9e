import Adequacy.Proofs.ChoiceEvaluation
import Adequacy.Proofs.LabeledLoops
import Adequacy.Proofs.LogicalText
import Adequacy.Proofs.PrintedNodes

namespace Adequacy

/-- A text that is skipped in front of whatever does not begin with more of the kind. -/
def Skipped (gap : List Char) : Prop := ∀ rest, startsBlank rest = false → Gap gap rest

/-- A text that a word has in a program with probes. An atom has the text that is printed for it. -/
def ChoiceWord.HasText (source : String) : ChoiceWord → List Char → Prop
  | atom n, text => ∃ counts, text = (n.print source counts).1
  | probe id, text => text = (Category.branch.probe id).toList
  | op o, text => text = o.text.toList
  | question, text => text = ['?']
  | colon, text => text = [':']
  | comma, text => text = [',']
  | opening, text => text = ['(']
  | closing, text => text = [')']

/-- A text is that of some words, with gaps between them. -/
inductive ChoiceText (source : String) : List ChoiceWord → List Char → Prop where
  | nil : ChoiceText source [] []
  | gap {gap text : List Char} {words : List ChoiceWord} (hg : Skipped gap)
      (h : ChoiceText source words text) : ChoiceText source words (gap ++ text)
  | word {w : ChoiceWord} {text later : List Char} {words : List ChoiceWord}
      (hw : w.HasText source text) (h : ChoiceText source words later) :
      ChoiceText source (w :: words) (text ++ later)

namespace ChoiceText

variable {source : String} {w : ChoiceWord} {words later : List ChoiceWord} {text text' : List Char}

theorem single (hw : w.HasText source text) : ChoiceText source [w] text := by
  simpa using word hw .nil

theorem append (h : ChoiceText source words text) (h' : ChoiceText source later text') :
    ChoiceText source (words ++ later) (text ++ text') := by
  induction h with
  | nil => exact h'
  | gap hg _ ih =>
    rw [List.append_assoc]
    exact .gap hg ih
  | word hw _ ih =>
    rw [List.append_assoc]
    exact .word hw ih

end ChoiceText

/-- Nothing stands between two offsets but what is skipped. -/
structure Skips (source : List Char) (start stop : Nat) : Prop where
  span_in : Span.In source ⟨start, stop⟩
  skipped : Skipped (Span.chars source ⟨start, stop⟩)

/-- A mark stands between two offsets, with what is skipped around it. -/
def Joins (source : List Char) (mark : String) (start stop : Nat) : Prop :=
  ∃ token : Span, Skips source start token.start ∧ token.Reads source mark.toList ∧
    Skips source token.stop stop

namespace Joins

variable {source : String} {mark : String} {start stop : Nat}

theorem span_in (h : Joins source.toList mark start stop) :
    Span.In source.toList ⟨start, stop⟩ := by
  obtain ⟨token, hfront, hreads, hback⟩ := h
  exact ⟨hfront.span_in.start_isBoundary, hback.span_in.stop_isBoundary,
    hfront.span_in.start_le_stop.trans
      (hreads.span_in.start_le_stop.trans hback.span_in.start_le_stop)⟩

theorem text {w : ChoiceWord} (h : Joins source.toList mark start stop)
    (hw : w.HasText source mark.toList) :
    ChoiceText source [w] (Span.chars source.toList ⟨start, stop⟩) := by
  obtain ⟨token, hfront, hreads, hback⟩ := h
  have hrest : Span.In source.toList ⟨token.start, stop⟩ :=
    ⟨hreads.span_in.start_isBoundary, hback.span_in.stop_isBoundary,
      hreads.span_in.start_le_stop.trans hback.span_in.start_le_stop⟩
  have hchars : Span.chars source.toList ⟨token.start, stop⟩ = _ :=
    Span.In.chars_append (b := token.stop) hreads.span_in hback.span_in
  rw [hfront.span_in.chars_append hrest, hchars, hreads.chars_eq]
  have hgap : ChoiceText source [] (Span.chars source.toList ⟨token.stop, stop⟩) := by
    simpa using ChoiceText.gap hback.skipped .nil
  exact .gap hfront.skipped (.word hw hgap)

end Joins

namespace Node

/-- Whether an expression is a word of the expression of choices that it stands in. -/
def isAtom : Node → Bool
  | logical .. | conditional .. | paren .. | block .. => false
  | _ => true

/-- An expression is built from atoms with logical operators, conditionals and parentheses, as the
grammar has it, and its span reads so. -/
inductive IsChoice (source : List Char) : ChoiceLevel → Node → Prop where
  | atom {n : Node} (h : n.isAtom = true) : IsChoice source .primary n
  | paren {start stop : Nat} {e : Node} (hopening : Span.Reads source ⟨start, start + 1⟩ ['('])
      (hfront : Skips source (start + 1) e.span.start) (he : IsChoice source .sequence e)
      (hback : Skips source e.span.stop stop)
      (hclosing : Span.Reads source ⟨stop, stop + 1⟩ [')']) :
      IsChoice source .primary (paren ⟨start, stop + 1⟩ e)
  | logical {op : LogicalOp} {l r : Node} (hl : IsChoice source op.level l)
      (hop : Joins source op.text l.span.stop r.span.start)
      (hr : IsChoice source op.rightLevel r) :
      IsChoice source op.level (logical ⟨l.span.start, r.span.stop⟩ op l r)
  | conditional {test yes no : Node} (ht : IsChoice source .shortCircuit test)
      (hquestion : Joins source "?" test.span.stop yes.span.start)
      (hy : IsChoice source .assignment yes)
      (hcolon : Joins source ":" yes.span.stop no.span.start)
      (hn : IsChoice source .assignment no) :
      IsChoice source .assignment (conditional ⟨test.span.start, no.span.stop⟩ test yes no)
  | lift {l m : ChoiceLevel} {n : Node} (hl : m.admits l = true) (h : IsChoice source l n) :
      IsChoice source m n

end Node

/-- An id is that of a site if sites are numbered from a first id on. -/
def Numbered (base : Nat) (sites : List ProbeSite) (id : Nat) (site : ProbeSite) : Prop :=
  ∃ i, sites[i]? = some site ∧ id = base + i

/-- A text reads as an expression of a level. Its evaluation agrees with another one, when sites are
numbered from a first id on. -/
def ReadsAs (source : String) (l : ChoiceLevel) (base : Nat) (sites : List ProbeSite)
    (evaluate : ∀ V, ChoiceValues V → Evaluation ProbeSite V) (text : List Char) : Prop :=
  ∃ words tree, ChoiceText source words text ∧ Derives l words tree ∧
    ∀ V (σ : ChoiceValues V), (tree.evaluate σ).Agrees (Numbered base sites) (evaluate V σ)

namespace Numbered

variable {base id : Nat} {front back sites : List ProbeSite} {site : ProbeSite}

theorem left (h : Numbered base front id site) : Numbered base (front ++ back) id site := by
  obtain ⟨i, hi, rfl⟩ := h
  obtain ⟨hlt, -⟩ := List.getElem?_eq_some_iff.mp hi
  exact ⟨i, by rw [List.getElem?_append_left hlt, hi], rfl⟩

theorem right (h : Numbered (base + front.length) back id site) :
    Numbered base (front ++ back) id site := by
  obtain ⟨i, hi, rfl⟩ := h
  refine ⟨front.length + i, ?_, by omega⟩
  rw [List.getElem?_append_right (Nat.le_add_right _ _), Nat.add_sub_cancel_left, hi]

end Numbered

namespace ReadsAs

variable {source : String} {l m : ChoiceLevel} {base : Nat} {op : LogicalOp}
  {sites sites' sites'' : List ProbeSite} {text text' text'' mid mid' : List Char}
  {f g k : ∀ V, ChoiceValues V → Evaluation ProbeSite V}

theorem atom {n : Node} (h : n.isAtom = true) (counts : ProbeCounts) :
    ReadsAs source .primary base sites (fun _ σ => n.evaluate σ) (n.print source counts).1 := by
  refine ⟨[.atom n], .atom n, .single ⟨counts, rfl⟩, .atom n, fun V σ => ?_⟩
  have heval : n.evaluate σ = ⟨σ.atom n, [.atom n]⟩ := by
    cases n <;> first | rfl | cases h
  simp only [heval]
  exact ⟨rfl, .cons (.atom n) .nil⟩

theorem lift (hl : m.admits l = true) (h : ReadsAs source l base sites f text) :
    ReadsAs source m base sites f text := by
  obtain ⟨words, tree, htext, hderives, hagrees⟩ := h
  exact ⟨words, tree, htext, .lift hl hderives, hagrees⟩

theorem group (h : ReadsAs source .sequence base sites f text) {front back : List Char}
    (hfront : Skipped front) (hback : Skipped back) :
    ReadsAs source .primary base sites f (['('] ++ (front ++ (text ++ (back ++ [')'])))) := by
  obtain ⟨words, tree, htext, hderives, hagrees⟩ := h
  refine ⟨_, tree, ?_, .group hderives, hagrees⟩
  exact .word rfl (.gap hfront (htext.append (.gap hback (.single rfl))))

/-- The probe in front of an expression has the number of the site. -/
theorem probed (h : ReadsAs source .assignment (base + 1) sites f text) (site : ProbeSite) :
    ReadsAs source .primary base (site :: sites) (fun V σ => (f V σ).behind [.branch site])
      (['('] ++ ((Category.branch.probe base).toList ++
        ([','] ++ ([' '] ++ (text ++ [')']))))) := by
  obtain ⟨words, tree, htext, hderives, hagrees⟩ := h
  have hblank : Skipped [' '] := fun rest h => .blank rfl (.nil h)
  refine ⟨.opening :: (.probe base :: .comma :: words ++ [.closing]), .follow (.probe base) tree,
    ?_, .group (.follow (.lift rfl (.probe base)) hderives), fun V σ => ?_⟩
  · exact .word rfl (.word rfl (.word rfl (.gap hblank (htext.append (.single rfl)))))
  have hfirst : List.Forall₂ (ChoiceEvent.Same (Numbered base (site :: sites)))
      [.branch base] [.branch site] := .cons (.branch ⟨0, rfl, rfl⟩) .nil
  have hbehind {id : Nat} {s : ProbeSite} (h : Numbered (base + 1) sites id s) :
      Numbered base ([site] ++ sites) id s := .right h
  exact ((hagrees V σ).mono fun _ _ => hbehind).behind hfirst

theorem logical (hl : ReadsAs source op.level base sites f text)
    (hr : ReadsAs source op.rightLevel (base + sites.length) sites' g text')
    (hmid : ChoiceText source [.op op] mid) :
    ReadsAs source op.level base (sites ++ sites')
      (fun V σ => Evaluation.applied σ op (f V σ) (g V σ)) (text ++ (mid ++ text')) := by
  obtain ⟨ls, l, hls, hlderives, hlagrees⟩ := hl
  obtain ⟨rs, r, hrs, hrderives, hragrees⟩ := hr
  refine ⟨_, _, hls.append (hmid.append hrs), .apply hlderives hrderives, fun V σ => ?_⟩
  exact .applied ((hlagrees V σ).mono fun _ _ => .left) ((hragrees V σ).mono fun _ _ => .right)

theorem conditional (ht : ReadsAs source .shortCircuit base sites f text)
    (hy : ReadsAs source .assignment (base + sites.length) sites' g text')
    (hn : ReadsAs source .assignment (base + sites.length + sites'.length) sites'' k text'')
    (hmid : ChoiceText source [.question] mid) (hmid' : ChoiceText source [.colon] mid') :
    ReadsAs source .assignment base (sites ++ (sites' ++ sites''))
      (fun V σ => Evaluation.chosen σ (f V σ) (g V σ) (k V σ))
      (text ++ (mid ++ (text' ++ (mid' ++ text'')))) := by
  obtain ⟨ts, t, hts, htderives, htagrees⟩ := ht
  obtain ⟨ys, y, hys, hyderives, hyagrees⟩ := hy
  obtain ⟨ns, n, hns, hnderives, hnagrees⟩ := hn
  refine ⟨_, _, hts.append (hmid.append (hys.append (hmid'.append hns))),
    .choose htderives hyderives hnderives, fun V σ => ?_⟩
  exact .chosen ((htagrees V σ).mono fun _ _ => .left)
    ((hyagrees V σ).mono fun _ _ h => .right (.left h))
    ((hnagrees V σ).mono fun _ _ h => .right (.right h))

end ReadsAs

/-- What edits make of a text under a span is what is copied of it. -/
theorem Patch.Turns.splice {source : List Char} {span : Span} {p : Patch} {new : List Char}
    (h : Turns source span p new) :
    Patch.splice (span.chars source) span.start (Patch.inOrder p) = new := by
  obtain ⟨cuts, rest, rfl, hold, rfl⟩ := h.exists_cuts
  rw [Cut.inOrder_edits, hold, splice_edits]

namespace Node

open PrintPart

variable {source : String} {span : Span} {op : LogicalOp} {l r e test yes no : Node}

/-- An edit turns the span of a child of an expression into a text. -/
theorem turns_child {n c : Node} (hn : n.Everywhere (Nested source)) (hother : n.isOther = false)
    (hc : c ∈ n.children) (text : List Char) :
    Patch.Turns source.toList ⟨c.span.start, c.span.stop⟩ [⟨c.region, String.ofList text⟩] text := by
  have hin := (hn.child hc).here.region_in
  rw [region_eq_span (hn.here.isFunc hother c hc)] at hin ⊢
  have h := Patch.Turns.edit hin (String.ofList text)
  rwa [String.toList_ofList] at h

theorem print_of_turns {n : Node} {counts : ProbeCounts} {text : List Char}
    (h : Patch.Turns source.toList n.region
      (Printer.edits ((n.parts source).map fun p => (p.span, p.printer source)) counts).1 text) :
    (n.print source counts).1 = text := by
  rw [print_eq]
  exact h.splice

/-- A logical expression is printed as its operands with what stands between them. -/
theorem print_logical (h : (logical ⟨l.span.start, r.span.stop⟩ op l r).Everywhere (Nested source))
    (hmid : Span.In source.toList ⟨l.span.stop, r.span.start⟩) (counts : ProbeCounts) :
    ((logical ⟨l.span.start, r.span.stop⟩ op l r).print source counts).1 =
      ((operand l).printer source counts).1 ++
        (Span.chars source.toList ⟨l.span.stop, r.span.start⟩ ++
          ((operand r).printer source ((operand l).printer source counts).2).1) := by
  have hl := turns_child h rfl (c := l) (by simp [children])
  have hr := turns_child h rfl (c := r) (by simp [children])
  have hall := (hl ((operand l).printer source counts).1).append ((Patch.Turns.keep hmid).append
    (hr ((operand r).printer source ((operand l).printer source counts).2).1))
  refine print_of_turns ?_
  change Patch.Turns _ ⟨l.span.start, r.span.stop⟩ _ _
  simpa [parts, Printer.edits] using hall

/-- A conditional is printed as its test and its arms behind their probes, with what stands between
them. -/
theorem print_conditional
    (h : (conditional ⟨test.span.start, no.span.stop⟩ test yes no).Everywhere (Nested source))
    (hmid : Span.In source.toList ⟨test.span.stop, yes.span.start⟩)
    (hmid' : Span.In source.toList ⟨yes.span.stop, no.span.start⟩) (counts : ProbeCounts) :
    ((conditional ⟨test.span.start, no.span.stop⟩ test yes no).print source counts).1 =
      (test.print source counts).1 ++
        (Span.chars source.toList ⟨test.span.stop, yes.span.start⟩ ++
          (((wrapped .branch yes).printer source (test.print source counts).2).1 ++
            (Span.chars source.toList ⟨yes.span.stop, no.span.start⟩ ++
              ((wrapped .branch no).printer source ((wrapped .branch yes).printer source
                (test.print source counts).2).2).1))) := by
  have ht := turns_child h rfl (c := test) (by simp [children])
  have hy := turns_child h rfl (c := yes) (by simp [children])
  have hn := turns_child h rfl (c := no) (by simp [children])
  have hall := (ht (test.print source counts).1).append ((Patch.Turns.keep hmid).append
    ((hy ((wrapped .branch yes).printer source (test.print source counts).2).1).append
      ((Patch.Turns.keep hmid').append (hn ((wrapped .branch no).printer source
        ((wrapped .branch yes).printer source (test.print source counts).2).2).1))))
  refine print_of_turns ?_
  change Patch.Turns _ ⟨test.span.start, no.span.stop⟩ _ _
  have hwhole : (whole test).printer source = test.print source := Printer.concat_single _
  simpa [parts, Printer.edits, hwhole] using hall

theorem print_paren {start stop : Nat} (h : (paren ⟨start, stop + 1⟩ e).Everywhere (Nested source))
    (hopening : Span.Reads source.toList ⟨start, start + 1⟩ ['('])
    (hfront : Span.In source.toList ⟨start + 1, e.span.start⟩)
    (hback : Span.In source.toList ⟨e.span.stop, stop⟩)
    (hclosing : Span.Reads source.toList ⟨stop, stop + 1⟩ [')']) (counts : ProbeCounts) :
    ((paren ⟨start, stop + 1⟩ e).print source counts).1 =
      ['('] ++ (Span.chars source.toList ⟨start + 1, e.span.start⟩ ++ ((e.print source counts).1 ++
        (Span.chars source.toList ⟨e.span.stop, stop⟩ ++ [')']))) := by
  have he := turns_child h rfl (c := e) (by simp [children])
  have hright := (he (e.print source counts).1).append
    ((Patch.Turns.keep hback).append (.reads hclosing))
  have hall := (Patch.Turns.reads hopening).append ((Patch.Turns.keep hfront).append hright)
  refine print_of_turns ?_
  change Patch.Turns _ ⟨start, stop + 1⟩ _ _
  have hwhole : (whole e).printer source = e.print source := Printer.concat_single _
  simpa [parts, children, Printer.edits, hwhole] using hall

/-- The branches that are met on some steps of the way through a node. -/
def branchSites (source : String) (steps : List SiteStep) : List ProbeSite :=
  (steps.flatMap (SiteStep.sites source)).filter (·.category = .branch)

theorem branchSites_wrapped (construct n : Node) :
    branchSites source (SiteStep.wrapped .branch construct n) =
      ⟨.branch, construct, n.span.start⟩ :: n.sitesOf source .branch := by
  simp [branchSites, SiteStep.wrapped, SiteStep.sites, sitesOf]

theorem sitesOf_logical : (logical span op l r).sitesOf source .branch =
    branchSites source (SiteStep.operand l) ++ branchSites source (SiteStep.operand r) := by
  rw [sitesOf, sites_eq, SiteStep.ofNode, List.flatMap_append, List.filter_append]
  rfl

theorem sitesOf_conditional : (conditional span test yes no).sitesOf source .branch =
    test.sitesOf source .branch ++
      (branchSites source (SiteStep.wrapped .branch (conditional span test yes no) yes) ++
        branchSites source (SiteStep.wrapped .branch (conditional span test yes no) no)) := by
  rw [sitesOf, sites_eq, SiteStep.ofNode, List.flatMap_append, List.flatMap_cons,
    List.filter_append, List.filter_append, List.append_assoc]
  rfl

theorem sitesOf_paren : (paren span e).sitesOf source .branch = e.sitesOf source .branch := by
  rw [sitesOf, sites_eq]
  exact congrArg _ (List.append_nil _)

/-- Whatever the counts are, what is printed for an expression reads as it. -/
def PrintReads (source : String) (l : ChoiceLevel) (n : Node) : Prop :=
  ∀ counts : ProbeCounts, ReadsAs source l (counts.get .branch) (n.sitesOf source .branch)
    (fun _ σ => n.evaluate σ) (n.print source counts).1

variable {n construct : Node} {level : ChoiceLevel}

theorem PrintReads.wrapped (h : n.PrintReads source .assignment) (construct : Node)
    (counts : ProbeCounts) : ReadsAs source .primary (counts.get .branch)
      (branchSites source (SiteStep.wrapped .branch construct n))
      (fun _ σ => construct.evaluatedArm n (n.evaluate σ))
      ((wrapped .branch n).printer source counts).1 := by
  have htext : ((PrintPart.wrapped .branch n).printer source counts).1 =
      ['('] ++ ((Category.branch.probe (counts.get .branch)).toList ++ ([','] ++ ([' '] ++
        ((n.print source (counts.bump .branch)).1 ++ [')'])))) := by
    simp [PrintPart.printer, PrintPart.wrapped, Printer.concat, Slot.printer, Printer.text,
      Printer.probe]
  have hreads := h (counts.bump .branch)
  rw [ProbeCounts.get_bump, if_pos rfl] at hreads
  rw [htext, branchSites_wrapped]
  exact hreads.probed _

theorem PrintReads.operand (h : n.PrintReads source level)
    (hl : ChoiceLevel.assignment.admits level = true) (counts : ProbeCounts) :
    ReadsAs source level (counts.get .branch) (branchSites source (SiteStep.operand n))
      (fun _ σ => n.evaluatedOperand (n.evaluate σ)) ((operand n).printer source counts).1 := by
  unfold PrintPart.operand SiteStep.operand evaluatedOperand
  split
  · have hsites : branchSites source [.below n] = n.sitesOf source .branch :=
      congrArg _ (List.append_nil _)
    have hprint : (whole n).printer source = n.print source := Printer.concat_single _
    rw [hsites, hprint]
    exact h counts
  · have hassign : n.PrintReads source .assignment := fun counts => (h counts).lift hl
    exact (hassign.wrapped n.peel counts).lift (by cases level <;> rfl)

/-- The counts grow by what is met for a part. -/
theorem get_printer {p : PrintPart} {steps : List SiteStep} (hn : n.Everywhere (Nested source))
    (hnodes : p.nodes = [n]) (hmet : p.met = steps.map SiteStep.kind) (counts : ProbeCounts) :
    (p.printer source counts).2.get .branch =
      counts.get .branch + (branchSites source steps).length := by
  have hall : Slot.AllNested source p.met := by
    intro m hm
    obtain ⟨s, hs, hsm⟩ := List.mem_filterMap.mp hm
    have hmem : m ∈ p.nodes := List.mem_filterMap.mpr ⟨s, hs, by cases s <;> simp_all [Slot.met?]⟩
    rw [hnodes, List.mem_singleton] at hmem
    exact hmem ▸ hn
  rw [PrintPart.printer, Slot.get_concat hall, ← met, hmet, branchSites, SiteStep.length_sites]

/-- What is printed for an expression of choices reads as that expression with its probes. -/
theorem IsChoice.printReads (h : n.IsChoice source.toList level)
    (hn : n.Everywhere (Nested source)) : n.PrintReads source level := by
  induction h with
  | atom h => exact fun counts => .atom h counts
  | paren hopening hfront _ hback hclosing ih =>
    intro counts
    rw [print_paren hn hopening hfront.span_in hback.span_in hclosing, sitesOf_paren]
    exact (ih (hn.child (.head _)) counts).group hfront.skipped hback.skipped
  | @logical op l r _ hop _ hl hr =>
    intro counts
    have hl := hl (hn.child (.head _))
    have hr := hr (hn.child (.tail _ (.head _)))
    rw [print_logical hn hop.span_in, sitesOf_logical]
    have hnext := get_printer (hn.child (.head _)) nodes_operand (met_operand (n := l)) counts
    have hright := hr.operand (by cases op <;> rfl) ((operand l).printer source counts).2
    rw [hnext] at hright
    exact .logical (hl.operand (by cases op <;> rfl) counts) hright (hop.text rfl)
  | @conditional test yes no _ hquestion _ hcolon _ ht hy hno =>
    intro counts
    let construct : Node := .conditional ⟨test.span.start, no.span.stop⟩ test yes no
    have hchild : test ∈ construct.children ∧ yes ∈ construct.children ∧
        no ∈ construct.children := by simp [construct, children]
    rw [print_conditional hn hquestion.span_in hcolon.span_in, sitesOf_conditional]
    have htest := get_print (hn.child hchild.1) counts .branch
    have hmet : (wrapped .branch yes).met =
        (SiteStep.wrapped .branch construct yes).map SiteStep.kind := met_wrapped
    have hyes := get_printer (hn.child hchild.2.1) nodes_wrapped hmet (test.print source counts).2
    have hfirst := (hy (hn.child hchild.2.1)).wrapped construct (test.print source counts).2
    have hsecond := (hno (hn.child hchild.2.2)).wrapped construct
      ((wrapped .branch yes).printer source (test.print source counts).2).2
    rw [hyes, htest] at hsecond
    rw [htest] at hfirst
    exact .conditional (ht (hn.child hchild.1) counts) (hfirst.lift rfl) (hsecond.lift rfl)
      (hquestion.text rfl) (hcolon.text rfl)
  | lift hl _ ih => exact fun counts => (ih hn counts).lift hl

theorem IsChoice.isBlock {source : List Char} (h : n.IsChoice source level) :
    n.isBlock = false := by
  induction h with
  | @atom n h => cases n <;> first | rfl | cases h
  | lift _ _ ih => exact ih
  | _ => rfl

end Node

namespace Program

variable {p : Program} {e : Node} {level : ChoiceLevel}

/-- A conditional in parentheses as an operand. -/
def groupedChoice : Node :=
  .logical ⟨4, 25⟩ .or
    (.logical ⟨4, 20⟩ .and (.name ⟨4, 5⟩ "a") (.paren ⟨9, 20⟩
      (.conditional ⟨10, 19⟩ (.name ⟨10, 11⟩ "b") (.name ⟨14, 15⟩ "c") (.name ⟨18, 19⟩ "d"))))
    (.name ⟨24, 25⟩ "e")

def grouped : Program :=
  ⟨"x = a && (b ? c : d) || e", false, [.other ⟨0, 25⟩ .expressionStatement
    [.assign ⟨0, 25⟩ "=" (.name ⟨0, 1⟩ "x") groupedChoice]]⟩

set_option maxRecDepth 4000 in
theorem parse_grouped : Program.parse grouped.source = .ok grouped := by
  unfold Program.parse
  cbv

theorem nested_grouped : grouped.Nested where
  items n hn := Node.everywhere_of_nests (List.all_eq_true.mp (by cbv) n hn)
  parted := List.pairwise_singleton _ _

theorem reached_grouped : groupedChoice ∈ grouped.reached := by
  have hbelow {n c : Node} (hc : c ∈ n.reachedChildren) (he : groupedChoice ∈ c.reached) :
      groupedChoice ∈ n.reached := by
    rw [Node.reached_eq]
    exact .tail _ (List.mem_flatMap.mpr ⟨c, hc, he⟩)
  have hself : groupedChoice ∈ groupedChoice.reached := by
    rw [Node.reached_eq]
    exact .head _
  exact List.mem_flatMap.mpr ⟨_, .head _, hbelow (.head _) (hbelow (.tail _ (.head _)) hself)⟩

theorem joins_grouped {start stop : Nat} {mark : String}
    (h : (start, mark, stop) ∈ [(5, "&&", 9), (11, "?", 14), (15, ":", 18), (20, "||", 24)]) :
    Joins grouped.source.toList mark start stop := by
  let text := grouped.source.toList
  have hall : ∀ x ∈ [(5, "&&", 9), (11, "?", 14), (15, ":", 18), (20, "||", 24)],
      (Span.In text ⟨x.1, x.1 + 1⟩ ∧ Span.chars text ⟨x.1, x.1 + 1⟩ = [' ']) ∧
      (Span.In text ⟨x.1 + 1, x.2.2 - 1⟩ ∧
        Span.chars text ⟨x.1 + 1, x.2.2 - 1⟩ = x.2.1.toList) ∧
      Span.In text ⟨x.2.2 - 1, x.2.2⟩ ∧ Span.chars text ⟨x.2.2 - 1, x.2.2⟩ = [' '] := by decide
  obtain ⟨⟨hin, hchars⟩, ⟨hin', hchars'⟩, hin'', hchars''⟩ := hall _ h
  have hblank : Skipped [' '] := fun rest h => .blank rfl (.nil h)
  exact ⟨⟨start + 1, stop - 1⟩, ⟨hin, hchars ▸ hblank⟩, ⟨hin', hchars'⟩, ⟨hin'', hchars'' ▸ hblank⟩⟩

theorem isChoice_grouped : groupedChoice.IsChoice grouped.source.toList .disjunction := by
  have hname (span : Span) (text : String) {level : ChoiceLevel}
      (h : level.admits .primary = true) :
      (Node.name span text).IsChoice grouped.source.toList level := .lift h (.atom rfl)
  have hnone {offset : Nat} (h : offset ∈ [10, 19]) :
      Skips grouped.source.toList offset offset := by
    have hall : ∀ offset ∈ [10, 19], Span.In grouped.source.toList ⟨offset, offset⟩ ∧
        Span.chars grouped.source.toList ⟨offset, offset⟩ = [] := by decide
    obtain ⟨hin, hchars⟩ := hall offset h
    exact ⟨hin, hchars ▸ fun rest h => .nil h⟩
  have hchoice := Node.IsChoice.conditional (hname ⟨10, 11⟩ "b" rfl)
    (joins_grouped (by decide)) (hname ⟨14, 15⟩ "c" rfl) (joins_grouped (by decide))
    (hname ⟨18, 19⟩ "d" rfl)
  have hparen := @Node.IsChoice.paren _ 9 19 _ ⟨by decide, by decide⟩ (hnone (by decide))
    (.lift rfl hchoice) (hnone (by decide)) ⟨by decide, by decide⟩
  have hleft := @Node.IsChoice.logical _ .and _ _ (hname ⟨4, 5⟩ "a" rfl)
    (joins_grouped (by decide)) hparen
  exact @Node.IsChoice.logical _ .or _ _ (.lift rfl hleft) (joins_grouped (by decide))
    (hname ⟨24, 25⟩ "e" rfl)

end Program

end Adequacy
