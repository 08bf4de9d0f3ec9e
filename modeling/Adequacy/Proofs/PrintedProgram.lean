import Adequacy.Proofs.Rendering

namespace Adequacy

instance (a b : Span) : Decidable (a.Parted b) :=
  inferInstanceAs (Decidable (a.stop ≤ b.start ∨ b.stop < a.start))

namespace Node

def isFunc : Node → Bool
  | func .. => true
  | _ => false

def isOther : Node → Bool
  | other .. => true
  | _ => false

theorem region_eq_span {n : Node} (h : n.isFunc = false) : n.region = n.span := by
  cases n with
  | func span params body => cases h
  | _ => rfl

/-- Whether a block begins with its brace and a function has a block, and whether the colon that is
found for a case stands in front of its statements. -/
def isProper (source : String) : Node → Bool
  | func _ _ body => body.isBlock
  | block span body =>
    (span.chars source.toList).head? == some '\x7b' && body.all (span.start < ·.span.start)
  | switchCase span test body => (colon? source span test).any fun colon =>
      colon.stop ≤ span.stop && body.all (colon.stop ≤ ·.span.start)
  | _ => true

theorem isProper_block {source : String} {span : Span} {body : List Node} :
    (block span body).isProper source = true ↔
      (span.chars source.toList).head? = some '\x7b' ∧ ∀ s ∈ body, span.start < s.span.start := by
  simp [isProper]

theorem isProper_switchCase {source : String} {span : Span} {test : Option Node}
    {body : List Node} : (switchCase span test body).isProper source = true ↔
      ∃ colon, colon? source span test = some colon ∧
        colon.stop ≤ span.stop ∧ ∀ s ∈ body, colon.stop ≤ s.span.start := by
  simp [isProper, Option.any_eq_true]

/-- The text of a node holds those of its children, which do not overlap. Only the nodes that count
through their children have functions right below them. -/
structure Nested (source : String) (n : Node) : Prop where
  region_in : n.region.In source.toList
  inside : ∀ c ∈ n.children, n.region.start ≤ c.region.start ∧ c.region.stop ≤ n.region.stop
  parted : n.children.Pairwise (·.region.Parted ·.region)
  isFunc : n.isOther = false → ∀ c ∈ n.children, c.isFunc = false
  isProper : n.isProper source = true

instance (source : String) (n : Node) : Decidable (n.Nested source) :=
  decidable_of_iff (n.region.In source.toList ∧
      (∀ c ∈ n.children, n.region.start ≤ c.region.start ∧ c.region.stop ≤ n.region.stop) ∧
      n.children.Pairwise (fun a b => a.region.Parted b.region) ∧
      (n.isOther = false → ∀ c ∈ n.children, c.isFunc = false) ∧ n.isProper source = true)
    ⟨fun ⟨h1, h2, h3, h4, h5⟩ => ⟨h1, h2, h3, h4, h5⟩,
      fun h => ⟨h.region_in, h.inside, h.parted, h.isFunc, h.isProper⟩⟩

/-- Whether all nodes from a node down are nested. -/
def nests (source : String) (n : Node) : Bool :=
  decide (n.Nested source) && n.children.attach.all fun ⟨c, _⟩ => c.nests source
termination_by sizeOf n
decreasing_by exact sizeOf_lt_of_mem_children (by assumption)

theorem everywhere_of_nests {source : String} {n : Node} (h : n.nests source = true) :
    n.Everywhere (Nested source) := by
  induction n using induct with
  | step n ih =>
    rw [nests, Bool.and_eq_true, decide_eq_true_eq, List.all_eq_true] at h
    exact .intro h.1 fun c hc => ih c hc (h.2 ⟨c, hc⟩ (List.mem_attach _ _))

/-- The printer of a node renders its marks. Those of a block are behind its brace. -/
structure Printed (source : String) (n : Node) : Prop where
  renders : Printer.Renders source.toList (n.marks source) n.region (n.print source)
  opens (h : n.isBlock = true) : (n.span.chars source.toList).head? = some '\x7b'
  inner (h : n.isBlock = true) : ∀ m ∈ n.marks source, n.span.start < m.offset

end Node

theorem Token.chars_of_find? {source expected : String} {offset : Nat} {token : Span}
    (h : find? source offset expected = some token) :
    token.chars source.toList = expected.toList := by
  obtain ⟨as, bs, htext, hsize, hseek⟩ := find?_eq_some_iff.mp h
  obtain ⟨mid, later, rfl, hstart, hstop⟩ := seek_reads hseek
  have hall : source.toList = (as ++ mid) ++ expected.toList ++ later := by rw [htext]; simp
  refine Span.chars_eq hall ?_ ?_ <;> rw [byteSize_append] <;> omega

namespace PrintPart

variable {source : String} {n : Node} {c : Category} {item : Span}

theorem prints_whole (h : n.Printed source) : (whole n).Prints source [.visit n] := by
  simpa [Prints, whole, printer, Slot.printer, ProbeStep.marks] using h.renders

theorem prints_statement (h : n.Printed source) (hf : n.isFunc = false) :
    (statement n).Prints source (ProbeStep.statements [n]) := by
  have hw := prints_whole h
  unfold statement
  by_cases hd : n.isDeclaration = true
  · simpa [ProbeStep.statements, hd, whole] using hw
  · have hb := Printer.Renders.before [.probe .stmt n.span, .text "; "] hw
    simpa [ProbeStep.statements, hd, whole, Prints, printer, Slot.printer, Piece.printer,
      ProbeStep.marks, Node.region_eq_span hf] using hb

theorem prints_wrapped (h : n.Printed source) (hf : n.isFunc = false) :
    (wrapped c n).Prints source (ProbeStep.wrapped c item n) := by
  have hb := ((prints_whole h).before [.text "(", .probe c item, .text ", "]).behind [.text ")"]
  simpa [wrapped, ProbeStep.wrapped, whole, Prints, printer, Slot.printer, Piece.printer,
      ProbeStep.marks, Node.region_eq_span hf] using hb

theorem prints_opened (h : n.Printed source) (hb : n.isBlock = true) :
    (opened c n).Prints source (ProbeStep.openedBlock c item n) := by
  have hr : n.region = n.span := by
    obtain ⟨_, _, rfl⟩ := Node.eq_block_of_isBlock hb
    rfl
  have hp := h.renders
  rw [hr] at hp
  have ho := hp.opened [.text " ", .probe c item, .text ";"] (h.opens hb) (h.inner hb)
  rw [List.map_cons, List.cons_append, Piece.printer, Printer.concat_text_text] at ho
  simpa [opened, ProbeStep.openedBlock, Prints, printer, Slot.printer, Piece.printer,
    ProbeStep.marks, hr] using ho

theorem body_of_isBlock_eq_false (probe : Option Category) (hb : n.isBlock = false) :
    body probe n = ⟨n.region,
      .text "\x7b " :: probe.toList.flatMap (fun c => [.probe c, .text "; "]) ++
      (statement n).slots ++ [.text " \x7d"]⟩ := by
  unfold body
  split
  · cases hb
  · cases hb
  · rfl

theorem prints_body (item : Option (Category × Span)) (h : n.Printed source)
    (hf : n.isFunc = false) :
    (body (item.map Prod.fst) n).Prints source (ProbeStep.body item n) := by
  by_cases hb : n.isBlock = true
  · obtain ⟨_, _, rfl⟩ := Node.eq_block_of_isBlock hb
    cases item with
    | none => exact prints_whole h
    | some item => exact prints_opened h rfl
  · rw [Bool.not_eq_true] at hb
    have hs := ((prints_statement h hf).before (.text "\x7b " ::
      item.toList.flatMap fun i => [.probe i.1 i.2, .text "; "])).behind [.text " \x7d"]
    rw [body_of_isBlock_eq_false _ hb, ProbeStep.body_of_isBlock_eq_false _ hb]
    have hr : (statement n).span = n.span := Node.region_eq_span hf
    cases item <;> simpa [Prints, printer, Slot.printer, Piece.printer, ProbeStep.marks,
      Node.region_eq_span hf, hr] using hs

theorem prints_operand (h : n.Printed source) (hf : n.isFunc = false) :
    (operand n).Prints source (ProbeStep.operand n) := by
  unfold operand ProbeStep.operand
  split
  · exact prints_whole h
  · exact prints_wrapped h hf

theorem arrowBody_of_isBlock_eq_false (hb : n.isBlock = false) :
    arrowBody n = ⟨n.region, [.text "\x7b ", .probe .func, .text "; ", .probe .stmt,
      .text "; return ", .node n, .text "; \x7d"]⟩ := by
  unfold arrowBody
  split
  · cases hb
  · rfl

theorem prints_arrowBody (h : n.Printed source) (hf : n.isFunc = false) (hb : n.isBlock = false) :
    (arrowBody n).Prints source
      [.mark ⟨n.span.start,
        [.text "\x7b ", .probe .func item, .text "; ", .probe .stmt n.span, .text "; return "]⟩,
       .visit n, .mark ⟨n.span.stop, [.text "; \x7d"]⟩] := by
  have hs := ((prints_whole h).before [.text "\x7b ", .probe .func item, .text "; ",
    .probe .stmt n.span, .text "; return "]).behind [.text "; \x7d"]
  rw [arrowBody_of_isBlock_eq_false hb]
  simpa [whole, Prints, printer, Slot.printer, Piece.printer, ProbeStep.marks,
    Node.region_eq_span hf] using hs

theorem prints_colon {colon : Span} (hin : colon.In source.toList)
    (ht : colon.chars source.toList = [':']) :
    (PrintPart.colon colon).Prints source
      [.mark ⟨colon.stop, [.text " ", .probe .branch item, .text ";"]⟩] := by
  have h := (Printer.Renders.unmarked (t := ":") hin ht)
  rw [← Printer.concat_single (.text ":")] at h
  have hb := h.behind [.text " ", .probe .branch item, .text ";"]
  rw [List.map_cons, List.singleton_append, Piece.printer, Printer.concat_text_text] at hb
  exact hb

theorem prints_missingElse {stop : Nat} (hin : isBoundary stop source.toList = true) :
    (missingElse stop).Prints source
      [.mark ⟨stop, [.text " else \x7b ", .probe .branch item, .text "; \x7d"]⟩] := by
  have hpoint : (Span.point stop).In source.toList := ⟨hin, hin, Nat.le_refl _⟩
  have hempty : (Span.point stop).chars source.toList = "".toList := by
    have hsize := hpoint.byteSize_chars
    exact eq_nil_of_byteSize_eq_zero (hsize.trans (Nat.sub_self _))
  have h := Printer.Renders.unmarked hpoint hempty
  rw [← Printer.concat_single (.text "")] at h
  have hb := h.behind [.text " else \x7b ", .probe .branch item, .text "; \x7d"]
  rw [List.map_cons, List.singleton_append, Piece.printer, Printer.concat_text_text] at hb
  exact hb

end PrintPart

namespace Node

open PrintPart (AllPrint)

variable {source : String} {n : Node}

theorem allPrint_visits {ns : List Node} (h : ∀ n ∈ ns, n.Printed source) :
    AllPrint source (ProbeStep.visits ns) (ns.map .whole) := by
  have hall := AllPrint.map fun n hn => PrintPart.prints_whole (h n hn)
  rwa [← List.map_eq_flatMap] at hall

theorem allPrint_statements {ns : List Node} (h : ∀ n ∈ ns, n.Printed source)
    (hf : ∀ n ∈ ns, n.isFunc = false) :
    AllPrint source (ProbeStep.statements ns) (ns.map .statement) := by
  have hall := AllPrint.map fun n hn => PrintPart.prints_statement (h n hn) (hf n hn)
  simpa [ProbeStep.statements] using hall

theorem caseStart_eq (source : String) (span : Span) (test : Option Node) :
    ProbeStep.caseStart source span test = (colon? source span test).elim span.stop (·.stop) := by
  unfold ProbeStep.caseStart colon?
  cases test <;> dsimp only <;> split <;> simp_all

theorem allPrint_body {item : Category × Span} {c : Node} (h : c.Printed source)
    (hf : c.isFunc = false) :
    AllPrint source (ProbeStep.body (some item) c) [.body (some item.1) c] :=
  .single (PrintPart.prints_body (some item) h hf)

theorem allPrint_plainBody {c : Node} (h : c.Printed source) (hf : c.isFunc = false) :
    AllPrint source (ProbeStep.body none c) [.body none c] :=
  .single (PrintPart.prints_body none h hf)

theorem allPrint_arrow {params : List Node} {body : Node} (hp : ∀ c ∈ params, c.Printed source)
    (hb : body.Printed source) (hf : body.isFunc = false) (span : Span) :
    AllPrint source (ProbeStep.ofNode source (.arrow span params body))
      (parts source (.arrow span params body)) := by
  refine (allPrint_visits hp).append (.single ?_)
  by_cases hblock : body.isBlock = true
  · obtain ⟨_, _, rfl⟩ := eq_block_of_isBlock hblock
    exact PrintPart.prints_opened hb rfl
  · rw [Bool.not_eq_true] at hblock
    split
    · cases hblock
    · exact PrintPart.prints_arrowBody hb hf hblock

theorem allPrint_switchCase {span : Span} {test : Option Node} {body : List Node}
    (hproper : (switchCase span test body).isProper source = true)
    (hbody : ∀ s ∈ body, s.Printed source) (hf : ∀ s ∈ body, s.isFunc = false) :
    AllPrint source (ProbeStep.ofNode source (.switchCase span test body))
      (parts source (.switchCase span test body)) := by
  obtain ⟨colon, hcolon, -, -⟩ := isProper_switchCase.mp hproper
  have hreads := Token.find?_reads hcolon
  simp only [ProbeStep.ofNode, parts, caseStart_eq, hcolon]
  exact .cons (PrintPart.prints_colon hreads.1 (Token.chars_of_find? hcolon))
    (allPrint_statements hbody hf)

/-- The parts of a node print what its steps insert. -/
theorem allPrint_parts (hn : n.Nested source) (hc : ∀ c ∈ n.children, c.Printed source) :
    AllPrint source (ProbeStep.ofNode source n) (n.parts source) := by
  have hf := hn.isFunc
  -- for the nodes whose children are all printed as they are
  have hvisits := allPrint_visits hc
  cases n <;> simp only [isOther, children, List.forall_mem_append, List.forall_mem_cons,
    forall_const] at hc hf
  case func span params body =>
    exact (allPrint_visits hc.1).append (.single (PrintPart.prints_opened hc.2.1 hn.isProper))
  case arrow span params body => exact allPrint_arrow hc.1 hc.2.1 hf.2.1 span
  case declarator span target init =>
    exact .cons (PrintPart.prints_whole hc.1)
      (.map fun c h => PrintPart.prints_wrapped (hc.2 c h) (hf.2 c h))
  case defaulted span target value =>
    exact .cons (PrintPart.prints_whole hc.1) (.single (PrintPart.prints_wrapped hc.2.1 hf.2.1))
  case block span body => exact allPrint_statements hc hf
  case staticBlock span body => exact allPrint_statements hc hf
  case switchCase span test body => exact allPrint_switchCase hn.isProper hc.2 hf.2
  case ifElse span test yes no =>
    have hfirst : AllPrint source (.visit test :: ProbeStep.body (some (.branch, span)) yes)
        [.whole test, .body (some .branch) yes] :=
      .cons (PrintPart.prints_whole hc.1) (allPrint_body hc.2.1 hf.2.1)
    cases no with
    | none =>
      exact hfirst.append (.single (PrintPart.prints_missingElse hn.region_in.stop_isBoundary))
    | some no =>
      simp only [Option.toList_some, List.forall_mem_singleton] at hc hf
      exact hfirst.append (allPrint_body hc.2.2 hf.2.2)
  case conditional span test yes no =>
    exact .append (.cons (PrintPart.prints_whole hc.1)
      (.single (PrintPart.prints_wrapped hc.2.1 hf.2.1)))
      (.single (PrintPart.prints_wrapped hc.2.2.1 hf.2.2.1))
  case logical span op left right =>
    exact .cons (PrintPart.prints_operand hc.1 hf.1)
      (.single (PrintPart.prints_operand hc.2.1 hf.2.1))
  case labeled span s =>
    simp only [ProbeStep.ofNode, parts]
    split
    · exact .single (PrintPart.prints_whole hc.1)
    · exact allPrint_plainBody hc.1 hf.1
  case whileLoop span test s =>
    exact .cons (PrintPart.prints_whole hc.1) (allPrint_plainBody hc.2.1 hf.2.1)
  case doWhile span s test =>
    exact .cons (PrintPart.prints_whole hc.1) (allPrint_plainBody hc.2.1 hf.2.1)
  case forLoop span init test step s =>
    refine (allPrint_visits ?_).append (allPrint_plainBody hc.2.1 hf.2.1)
    simpa only [List.forall_mem_append] using hc.1
  case forEach span left right s =>
    exact .cons (PrintPart.prints_whole hc.2.1) (allPrint_plainBody hc.2.2.1 hf.2.2.1)
  all_goals exact hvisits

theorem spans_eq {parts : List PrintPart} (h : ∀ p ∈ parts, p.nodes.map region = [p.span]) :
    parts.map PrintPart.span = (parts.flatMap PrintPart.nodes).map region := by
  induction parts with
  | nil => rfl
  | cons p later ih =>
    obtain ⟨hp, hlater⟩ := List.forall_mem_cons.mp h
    rw [List.map_cons, List.flatMap_cons, List.map_append, hp, ih hlater]
    rfl

/-- Parts lie in a span and do not overlap. -/
def Fit (span : Span) (parts : List PrintPart) : Prop :=
  (parts.map PrintPart.span).Pairwise Span.Parted ∧
    ∀ p ∈ parts, span.start ≤ p.span.start ∧ p.span.stop ≤ span.stop

/-- Parts that take the places of children fit in the region of the node. -/
theorem Nested.fit (hn : n.Nested source) (parts : List PrintPart)
    (h : ∀ p ∈ parts, p.nodes.map region = [p.span])
    (hc : List.Sublist (parts.flatMap PrintPart.nodes) n.children) : Fit n.region parts := by
  have hspans := spans_eq h
  constructor
  · rw [hspans, List.pairwise_map]
    exact hn.parted.sublist hc
  · intro p hp
    have hmem : p.span ∈ (parts.flatMap PrintPart.nodes).map region :=
      hspans ▸ List.mem_map_of_mem hp
    obtain ⟨c, hmem, heq⟩ := List.mem_map.mp hmem
    rw [← heq]
    exact hn.inside c (hc.subset hmem)

theorem fit_switchCase {span : Span} {test : Option Node} {body : List Node}
    (hn : (switchCase span test body).Nested source) (ht : ∀ t ∈ test, t.Nested source) :
    Fit span (parts source (.switchCase span test body)) := by
  obtain ⟨colon, hcolon, hstop, hbody⟩ := isProper_switchCase.mp hn.isProper
  obtain ⟨hin, hbehind, -⟩ := Token.find?_reads hcolon
  have hf := hn.isFunc rfl
  have hinside := hn.inside
  simp only [children, List.forall_mem_append, Option.mem_toList] at hf hinside
  have hstart : span.start ≤ colon.start := by
    cases test with
    | none => exact (Nat.le_add_right _ _).trans hbehind
    | some test =>
      have hle := (hinside.1 test rfl).1
      have htest := (ht test rfl).region_in.start_le_stop
      rw [region_eq_span (hf.1 test rfl)] at hle htest
      exact hle.trans (htest.trans hbehind)
  obtain ⟨hparted, hspans⟩ : Fit span (body.map .statement) := by
    refine hn.fit _ (by simp) ?_
    rw [flatMap_nodes fun _ => PrintPart.nodes_statement]
    exact List.sublist_append_right ..
  have hall : parts source (.switchCase span test body) =
      .colon colon :: body.map .statement := by simp [parts, hcolon]
  rw [hall]
  refine ⟨List.pairwise_cons.mpr ⟨?_, hparted⟩,
    List.forall_mem_cons.mpr ⟨⟨hstart, hstop⟩, hspans⟩⟩
  rw [List.map_map, List.forall_mem_map]
  intro s hs
  have hle := hbody s hs
  rw [← region_eq_span (hf.2 s hs)] at hle
  exact .inl hle

theorem fit_ifElse {span : Span} {test yes : Node}
    (hn : (ifElse span test yes none).Nested source) :
    Fit span (parts source (.ifElse span test yes none)) := by
  obtain ⟨hparted, hspans⟩ : Fit span [.whole test, .body (some .branch) yes] :=
    hn.fit _ (by simp) (by simp [children])
  have hle := hn.region_in.start_le_stop
  have hall : parts source (.ifElse span test yes none) =
    [.whole test, .body (some .branch) yes] ++ [.missingElse span.stop] := rfl
  rw [hall]
  refine ⟨?_, List.forall_mem_append.mpr ⟨hspans, by simpa using ⟨hle, Nat.le_refl _⟩⟩⟩
  rw [List.map_append]
  refine List.pairwise_append.mpr ⟨hparted, by simp, ?_⟩
  rw [List.forall_mem_map]
  intro p hp
  simpa [Span.Parted, PrintPart.missingElse, Span.point] using Or.inl (hspans p hp).2

/-- The parts of a node fit in its region. -/
theorem fit_parts (hn : n.Nested source) (hc : ∀ c ∈ n.children, c.Nested source) :
    Fit n.region (n.parts source) := by
  have hsub := nodes_parts_sublist source n
  cases n with
  | switchCase span test body => exact fit_switchCase hn fun t ht => hc t (by simp_all [children])
  | ifElse span test yes no =>
    cases no with
    | none => exact fit_ifElse hn
    | some no => exact hn.fit _ (by simp [parts]) hsub
  | labeled span s =>
    refine hn.fit _ ?_ hsub
    simp only [parts, List.forall_mem_singleton]
    split <;> simp
  | _ => exact hn.fit _ (by simp [parts, or_imp, forall_and]) hsub

theorem printed_of_nested (h : n.Everywhere (Nested source)) : n.Printed source := by
  induction n using Node.induct with
  | step n ih =>
    have hc (c) (hc : c ∈ n.children) : c.Printed source := ih c hc (h.child hc)
    have hn := h.here
    have hparts := allPrint_parts hn hc
    obtain ⟨hparted, hinside⟩ := fit_parts hn fun c hc => (h.child hc).here
    refine ⟨?_, fun hb => ?_, fun hb => ?_⟩
    · rw [marks_eq, print_eq]
      exact hparts.copy hparted hinside hn.region_in
    · obtain ⟨_, _, rfl⟩ := eq_block_of_isBlock hb
      exact (isProper_block.mp hn.isProper).1
    -- the probe of a body stands right behind its brace, in front of all marks of the block
    · obtain ⟨span, body, rfl⟩ := eq_block_of_isBlock hb
      have hstart (p) (hp : p ∈ body.map PrintPart.statement) :
          span.start + 1 ≤ p.span.start ∧ p.span.stop ≤ span.stop := by
        obtain ⟨s, hs, rfl⟩ := List.mem_map.mp hp
        have := (isProper_block.mp hn.isProper).2 s hs
        rw [← region_eq_span (hn.isFunc rfl s hs)] at this
        exact ⟨this, (hn.inside s hs).2⟩
      rw [marks_eq]
      exact fun m hm => (hparts.mark_in hstart m hm).1

end Node

namespace Program

/-- What the printing of a program takes for granted of its tree. -/
structure Nested (p : Program) : Prop where
  items : ∀ n ∈ p.items, n.Everywhere (Node.Nested p.source)
  parted : p.items.Pairwise (·.region.Parted ·.region)

variable {p : Program}

theorem whole_in (source : String) : Span.In source.toList ⟨0, source.utf8ByteSize⟩ where
  start_isBoundary := isBoundary_iff.mpr ⟨[], _, rfl, rfl⟩
  stop_isBoundary := isBoundary_iff.mpr
    ⟨_, [], (List.append_nil _).symm, (utf8ByteSize_eq_byteSize source).symm⟩
  start_le_stop := Nat.zero_le _

theorem print_renders (h : p.Nested) : Printer.Renders p.source.toList p.marks
    ⟨0, p.source.utf8ByteSize⟩ (.copy p.source.toList ⟨0, p.source.utf8ByteSize⟩
      (p.items.map fun n => (n.region, n.print p.source))) := by
  have hitems := Node.allPrint_visits fun n hn => Node.printed_of_nested (h.items n hn)
  have hspans : ∀ q ∈ p.items.map PrintPart.whole,
      0 ≤ q.span.start ∧ q.span.stop ≤ p.source.utf8ByteSize := by
    rw [List.forall_mem_map]
    intro n hn
    exact ⟨Nat.zero_le _, le_of_isBoundary (h.items n hn).here.region_in.stop_isBoundary⟩
  have hcopy := hitems.copy (by simpa [List.pairwise_map] using h.parted) hspans (whole_in p.source)
  simpa [marks, ProbeStep.visits, List.flatMap_map, ProbeStep.marks, PrintPart.printer,
    PrintPart.whole, Slot.printer, Function.comp_def] using hcopy

/-- The print of a program is its text with all insertions in their places. -/
theorem print_eq_woven (h : p.Nested) :
    p.print.toList = Insertion.woven p.insertions 0 p.source.toList := by
  simp only [print, (print_renders h).print_eq, String.toList_ofList]
  rw [utf8ByteSize_eq_byteSize, Span.chars_whole]
  rfl

/-- The insertions of the probes, sorted by their offsets, print the tree. -/
theorem render?_eq_print (h : p.Nested) :
    Insertion.render? p.source p.insertions = some p.print := by
  have hb (i) (hi : i ∈ p.insertions) : isBoundary i.offset p.source.toList = true := by
    obtain ⟨m, hm, ho⟩ := Mark.exists_of_mem_insertions hi
    rw [← ho]
    exact ((print_renders h).mark_in m hm).2.2
  rw [Insertion.render?_eq_woven hb, ← print_eq_woven h, String.ofList_toList]

theorem exists_instrument (h : p.Nested) : ∃ r, p.instrument? = some r ∧ r.program = p.print := by
  rw [instrument?, render?_eq_print h]
  exact ⟨_, rfl, rfl⟩

/-- The insertions of the probes, sorted by their offsets, make the text that is printed from the
tree. -/
theorem instrument?_eq_print (h : p.Nested) :
    p.instrument?.map Instrumentation.program = some p.print := by
  rw [instrument?, render?_eq_print h]
  rfl

/-- A loop whose test is visited before its body. -/
def looped : Program :=
  ⟨"do if (a) b\nwhile (c || d)", false, [.doWhile ⟨0, 26⟩
    (.ifElse ⟨3, 11⟩ (.name ⟨7, 8⟩ "a") (.other ⟨10, 11⟩ .expressionStatement [.name ⟨10, 11⟩ "b"])
      none)
    (.logical ⟨19, 25⟩ .or (.name ⟨19, 20⟩ "c") (.name ⟨24, 25⟩ "d"))]⟩

theorem parse_looped : Program.parse looped.source = .ok looped := by
  unfold Program.parse
  cbv

theorem nested_looped : looped.Nested where
  items n hn := Node.everywhere_of_nests (List.all_eq_true.mp (by cbv) n hn)
  parted := List.pairwise_singleton _ _

theorem instrument?_of_looped : parse looped.source = .ok looped ∧
    looped.instrument?.map Instrumentation.program = some
      ("do \x7b __cov__.stmt.add(0); " ++
        "if (a) \x7b __cov__.branch.add(2); __cov__.stmt.add(1); b \x7d" ++
        " else \x7b __cov__.branch.add(3); \x7d \x7d\n" ++
        "while ((__cov__.branch.add(0), c) || (__cov__.branch.add(1), d))") := by
  refine ⟨parse_looped, ?_⟩
  rw [instrument?_eq_print nested_looped]
  cbv

end Program

end Adequacy
