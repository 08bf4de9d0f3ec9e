import Adequacy.Proofs.CaseProbes
import Adequacy.Proofs.MarkFrames
import Adequacy.Proofs.ShownTexts

namespace Adequacy

namespace Node

section rows

variable {text : List Char} {offset : Nat} {begins : Nat → Nat → Prop} {ns ms : List Node}

/-- Where the last of some nodes ends, or an offset in front of them if there are none. -/
def rowStop : Nat → List Node → Nat
  | offset, [] => offset
  | _, n :: ns => rowStop n.span.stop ns

theorem inRow_append : InRow begins offset (ns ++ ms) ↔
    InRow begins offset ns ∧ InRow begins (rowStop offset ns) ms := by
  induction ns generalizing offset with
  | nil => simp [InRow, rowStop]
  | cons n ns ih => simp [InRow, rowStop, ih, and_assoc]

/-- Nodes in a row take a stretch of the text. -/
theorem InRow.span_in (h : InRow (· ≤ ·) offset ns) (hin : ∀ n ∈ ns, n.span.In text)
    (hb : isBoundary offset text = true) : Span.In text ⟨offset, rowStop offset ns⟩ := by
  induction ns generalizing offset with
  | nil => exact ⟨hb, hb, Nat.le_refl _⟩
  | cons n ns ih =>
    obtain ⟨hn, hin⟩ := List.forall_mem_cons.mp hin
    have hlater := ih h.2 hin hn.stop_isBoundary
    exact ⟨hb, hlater.stop_isBoundary, (h.1.trans hn.start_le_stop).trans hlater.start_le_stop⟩

/-- The text of nodes in a row is that in front of the first one, its own, and that of the rest. -/
theorem InRow.chars_cons {n : Node} (h : InRow (· ≤ ·) offset (n :: ns)) (hn : n.span.In text)
    (hrest : Span.In text ⟨n.span.stop, rowStop n.span.stop ns⟩)
    (hb : isBoundary offset text = true) :
    Span.chars text ⟨offset, rowStop offset (n :: ns)⟩ = Span.chars text ⟨offset, n.span.start⟩ ++
      (n.span.chars text ++ Span.chars text ⟨n.span.stop, rowStop n.span.stop ns⟩) := by
  have hgap : Span.In text ⟨offset, n.span.start⟩ := ⟨hb, hn.start_isBoundary, h.1⟩
  have hback : Span.In text ⟨n.span.start, rowStop n.span.stop ns⟩ :=
    ⟨hn.start_isBoundary, hrest.stop_isBoundary, hn.start_le_stop.trans hrest.start_le_stop⟩
  exact (hgap.chars_append hback).trans (congrArg _ (Span.In.chars_append hn hrest))

/-- A row ends where all of its nodes have ended. -/
theorem InRow.le_rowStop (h : InRow (· ≤ ·) offset ns) (hin : ∀ n ∈ ns, n.span.In text) :
    ∀ n ∈ ns, n.span.stop ≤ rowStop offset ns := by
  induction ns generalizing offset with
  | nil => simp
  | cons n ns ih =>
    obtain ⟨hn, hin⟩ := List.forall_mem_cons.mp hin
    exact List.forall_mem_cons.mpr
      ⟨(h.2.span_in hin hn.stop_isBoundary).start_le_stop, ih h.2 hin⟩

theorem rowStop_le {hi : Nat} (h : ∀ n ∈ ns, n.span.stop ≤ hi) (ho : offset ≤ hi) :
    rowStop offset ns ≤ hi := by
  induction ns generalizing offset with
  | nil => exact ho
  | cons n ns ih =>
    obtain ⟨hn, h⟩ := List.forall_mem_cons.mp h
    exact ih h hn

theorem brace_of_nested {source : String} {span : Span} (h : (block span ns).Nested source) :
    Span.In source.toList ⟨span.start, span.start + 1⟩ ∧
      Span.chars source.toList ⟨span.start, span.start + 1⟩ = ['\x7b'] := by
  obtain ⟨rest, hchars⟩ := List.head?_eq_some_iff.mp (isProper_block.mp h.isProper).1
  obtain ⟨as, mid, bs, htext, hstart, hstop⟩ := h.region_in.exists_text
  have hmid : span.chars source.toList = mid := Span.chars_eq htext hstart hstop
  have hall : source.toList = as ++ ['\x7b'] ++ (rest ++ bs) := by
    rw [htext, ← hmid, hchars]
    simp
  have hsize : byteSize (as ++ ['\x7b']) = span.start + 1 := by
    rw [byteSize_append, hstart]
    rfl
  refine ⟨⟨h.region_in.start_isBoundary, ?_, Nat.le_succ _⟩, Span.chars_eq hall hstart ?_⟩
  · exact isBoundary_iff.mpr ⟨_, _, hall, hsize⟩
  · rw [← byteSize_append, hsize]

/-- The first statement of a block is the next lexeme behind its brace, and so on. -/
theorem inRow_block {source : String} {span : Span} (hn : (block span ns).Nested source)
    (hl : (block span ns).Laid source.toList) :
    InRow (NextAt source.toList) (span.start + 1) ns := by
  obtain ⟨brace, hbrace, hrow⟩ := hl.shaped
  obtain ⟨hin, hchars⟩ := brace_of_nested hn
  obtain ⟨as, mid, bs, htext, hstart, hstop⟩ := hin.exists_text
  rw [Span.chars_eq htext hstart hstop] at hchars
  rw [← hbrace ⟨as, bs, by rw [htext, hchars, List.append_assoc]; rfl, hstart⟩]
  exact hrow

end rows

section directives

variable {source : String} {n : Node} {ds later : List Node} {span : Span}

/-- A statement that is a string and nothing else, like the directives of a prologue. -/
def isDirective : Node → Bool
  | other _ .expressionStatement [literal _ .string] => true
  | _ => false

theorem eq_of_isDirective (h : n.isDirective = true) :
    ∃ s t, n = other s .expressionStatement [literal t .string] := by
  unfold isDirective at h
  split at h
  · exact ⟨_, _, rfl⟩
  · cases h

/-- The probe that a statement of a sequence has in front of it. -/
def statementMark (s : Node) : Mark := ⟨s.span.start, [.probe .stmt s.span, .text "; "]⟩

theorem marks_statements_of_isDirective (h : ∀ d ∈ ds, d.isDirective = true) :
    (ProbeStep.statements ds).flatMap (ProbeStep.marks source) = ds.map statementMark := by
  rw [ProbeStep.statements, List.flatMap_assoc, List.map_eq_flatMap]
  refine List.flatMap_congr fun d hd => ?_
  obtain ⟨s, t, rfl⟩ := eq_of_isDirective (h d hd)
  have hliteral : (literal t .string).marks source = [] := by
    rw [marks_eq]
    rfl
  have hstatement : (other s .expressionStatement [literal t .string]).marks source = [] := by
    rw [marks_eq]
    exact (List.append_nil _).trans hliteral
  simp [isDeclaration, ProbeStep.marks, hstatement, statementMark]

theorem marks_block_of_isDirective (h : ∀ d ∈ ds, d.isDirective = true) :
    (block span (ds ++ later)).marks source = ds.map statementMark ++
      (ProbeStep.statements later).flatMap (ProbeStep.marks source) := by
  rw [marks_eq, ProbeStep.ofNode, ← marks_statements_of_isDirective h, ← List.flatMap_append]
  refine congrArg (List.flatMap _) ?_
  exact List.flatMap_append

theorem start_lt_stop_of_isDirective {text : List Char} (hd : n.isDirective = true)
    (h : n.Everywhere (Laid text)) : n.span.start < n.span.stop := by
  obtain ⟨s, t, rfl⟩ := eq_of_isDirective hd
  have hc : literal t .string ∈ (other s .expressionStatement [literal t .string]).children :=
    .head _
  have hinside := h.here.children rfl _ hc
  exact hinside.1.trans_lt ((h.child hc).here.shaped.trans_le hinside.2)

/-- The block that is the body of a function, by its span and its statements. -/
def body? : Node → Option (Span × List Node)
  | func _ _ (block span body) | arrow _ _ (block span body) => some (span, body)
  | _ => none

/-- A function whose body starts with directives. -/
structure HasPrologue (n : Node) (span : Span) (ds later : List Node) : Prop where
  body_eq : n.body? = some (span, ds ++ later)
  ne_nil : ds ≠ []
  isDirective : ∀ d ∈ ds, d.isDirective = true

/-- The probe of a function, right behind the brace of its body. -/
def bodyMark (n : Node) (span : Span) : Mark :=
  ⟨span.start + 1, [.text " ", .probe .func n.span, .text ";"]⟩

theorem isBlock_of_body? {body : List Node} (h : n.body? = some (span, body)) :
    n.isBlock = false := by
  unfold body? at h
  split at h <;> cases h <;> rfl

theorem mem_children_of_body? {body : List Node} (h : n.body? = some (span, body)) :
    block span body ∈ n.children := by
  unfold body? at h
  split at h <;> cases h <;> simp [children]

/-- What a function marks: its parameters, and then its own probe in front of its body. -/
theorem exists_params {body : List Node} (h : n.body? = some (span, body)) :
    ∃ params, n.children = params ++ [block span body] ∧
      n.marks source = params.flatMap (marks source) ++
        n.bodyMark span :: (block span body).marks source := by
  unfold body? at h
  split at h <;> cases h <;>
  · refine ⟨_, rfl, ?_⟩
    rw [marks_eq]
    simp [ProbeStep.ofNode, ProbeStep.visits, ProbeStep.openedBlock, ProbeStep.marks,
      List.flatMap_map, Node.span, bodyMark]

theorem outside_of_spares {m : Mark} (hb : n.isBlock = false)
    (hin : n.region.start ≤ span.start ∧ span.stop ≤ n.region.stop)
    (h : (ProbeStep.mark m).Spares n) : m.offset ≤ span.start ∨ span.stop ≤ m.offset := by
  rcases h with h | h | ⟨hblock, -⟩
  · exact .inl (h.trans hin.1)
  · exact .inr (hin.2.trans h)
  · rw [hb] at hblock
    cases hblock

/-- Where the directives are that a block starts with. The last one ends behind their probes. -/
structure Front (source : String) (span : Span) (ds later : List Node) : Prop where
  row : InRow (· ≤ ·) (span.start + 1) ds
  span_in : ∀ d ∈ ds, d.span.In source.toList
  inside : ∀ d ∈ ds, span.start < d.span.start ∧ d.span.start < rowStop (span.start + 1) ds
  lt_stop : span.start + 1 < rowStop (span.start + 1) ds
  stop_le : rowStop (span.start + 1) ds ≤ span.stop
  le_later : ∀ m ∈ (ProbeStep.statements later).flatMap (ProbeStep.marks source),
    rowStop (span.start + 1) ds ≤ m.offset

theorem front_of_hasPrologue (h : n.HasPrologue span ds later)
    (hn : n.Everywhere (Nested source)) (hl : n.Everywhere (Laid source.toList)) :
    Front source span ds later := by
  have hblock := hn.child (mem_children_of_body? h.body_eq)
  have hlaid := hl.child (mem_children_of_body? h.body_eq)
  have hin : ∀ s ∈ ds ++ later, s.span.In source.toList := fun s hs => (hlaid.child hs).here.span_in
  obtain ⟨hdin, hlin⟩ := List.forall_mem_append.mp hin
  obtain ⟨hrow, hlater⟩ := inRow_append.mp
    ((inRow_block hblock.here hlaid.here).imp fun _ _ => NextAt.le)
  have hinside : ∀ d ∈ ds, span.start + 1 ≤ d.span.start ∧
      d.span.start < rowStop (span.start + 1) ds := fun d hd =>
    ⟨hrow.le_start hdin d hd, (start_lt_stop_of_isDirective (h.isDirective d hd)
      (hlaid.child (List.mem_append_left _ hd))).trans_le (hrow.le_rowStop hdin d hd)⟩
  have hchild {s : Node} (hs : s ∈ later) : s ∈ (block span (ds ++ later)).children :=
    List.mem_append_right _ hs
  refine ⟨hrow, hdin, hinside, ?_, ?_, fun m hm => le_of_mem_statementMarks
    (fun s hs => hblock.child (hchild hs)) (fun s hs => hblock.here.isFunc rfl s (hchild hs))
    (hlater.le_start hlin) hm⟩
  · obtain ⟨d, hd⟩ := List.exists_mem_of_ne_nil ds h.ne_nil
    exact (hinside d hd).1.trans_lt (hinside d hd).2
  · exact rowStop_le (fun d hd => (hlaid.here.children rfl d (List.mem_append_left _ hd)).2)
      (start_lt_stop_of_isBlock hblock.here rfl)

/-- Statements behind an offset, each with the text in front of it and its probe. -/
def probedRow (text : List Char) : Nat → Nat → List Node → List Char
  | _, _, [] => []
  | id, offset, n :: ns => Span.chars text ⟨offset, n.span.start⟩ ++
      ((Category.stmt.probe id ++ "; ").toList ++
        (n.span.chars text ++ probedRow text (id + 1) n.span.stop ns))

theorem insertions_statementMark_cons (counts : ProbeCounts) (n : Node) (ns : List Node) :
    Mark.insertions counts ((n :: ns).map statementMark) =
      ⟨n.span.start, Category.stmt.probe (counts.get .stmt) ++ "; "⟩ ::
        Mark.insertions (counts.bump .stmt) (ns.map statementMark) := by
  simp [Mark.insertions, statementMark, Piece.render]

theorem le_of_mem_insertions_statementMarks {counts : ProbeCounts} {ns : List Node} {lo : Nat}
    (h : ∀ n ∈ ns, lo ≤ n.span.start) :
    ∀ i ∈ Mark.insertions counts (ns.map statementMark), lo ≤ i.offset := by
  intro i hi
  obtain ⟨m, hm, ho⟩ := Mark.exists_of_mem_insertions hi
  obtain ⟨n, hn, rfl⟩ := List.mem_map.mp hm
  rw [← ho]
  exact h n hn

/-- Statements in a row with their probes in front of them. -/
theorem woven_statementMarks {text : List Char} {offset : Nat} {ns : List Node}
    (h : InRow (· ≤ ·) offset ns) (hin : ∀ n ∈ ns, n.span.In text)
    (hb : isBoundary offset text = true) (counts : ProbeCounts) :
    Insertion.woven (Mark.insertions counts (ns.map statementMark)) offset
      (Span.chars text ⟨offset, rowStop offset ns⟩) =
        probedRow text (counts.get .stmt) offset ns := by
  induction ns generalizing offset counts with
  | nil =>
    have hpoint : Span.In text ⟨offset, offset⟩ := ⟨hb, hb, Nat.le_refl _⟩
    have hempty : Span.chars text ⟨offset, offset⟩ = [] :=
      eq_nil_of_byteSize_eq_zero (hpoint.byteSize_chars.trans (Nat.sub_self _))
    rw [rowStop, hempty]
    rfl
  | cons n ns ih =>
    obtain ⟨hn, hin'⟩ := List.forall_mem_cons.mp hin
    have hrest := h.2.span_in hin' hn.stop_isBoundary
    have hgap : Span.In text ⟨offset, n.span.start⟩ := ⟨hb, hn.start_isBoundary, h.1⟩
    have hstart : offset + byteSize (Span.chars text ⟨offset, n.span.start⟩) = n.span.start :=
      hgap.start_add_byteSize
    have hlater : ∀ i ∈ Mark.insertions (counts.bump .stmt) (ns.map statementMark),
        n.span.stop ≤ i.offset := le_of_mem_insertions_statementMarks (h.2.le_start hin')
    have hfront : ∀ i ∈ Mark.insertions (counts.bump .stmt) (ns.map statementMark),
        n.span.start ≤ i.offset := fun i hi => hn.start_le_stop.trans (hlater i hi)
    rw [h.chars_cons hn hrest hb, insertions_statementMark_cons,
      Insertion.woven_front (by rw [hstart]; exact List.forall_mem_cons.mpr ⟨Nat.le_refl _, hfront⟩),
      hstart, Insertion.woven_cons_here rfl hfront,
      Insertion.woven_front (by rw [hn.start_add_byteSize]; exact hlater), hn.start_add_byteSize,
      ih h.2 hin' hn.stop_isBoundary]
    rfl

/-- The probe of a function and those of the directives that its body starts with, put in their
places behind the brace. -/
theorem woven_prologue (hn : (block span (ds ++ later)).Nested source)
    (hf : Front source span ds later) (counts : ProbeCounts) :
    Span.In source.toList ⟨span.start, rowStop (span.start + 1) ds⟩ ∧
      Insertion.woven
        (⟨span.start + 1, " " ++ Category.func.probe (counts.get .func) ++ ";"⟩ ::
          Mark.insertions (counts.bump .func) (ds.map statementMark)) span.start
        (Span.chars source.toList ⟨span.start, rowStop (span.start + 1) ds⟩) =
      '\x7b' :: ((" " ++ Category.func.probe (counts.get .func) ++ ";").toList ++
        probedRow source.toList (counts.get .stmt) (span.start + 1) ds) := by
  obtain ⟨hbrace, hchars⟩ := brace_of_nested hn
  have hrow := hf.row.span_in hf.span_in hbrace.stop_isBoundary
  have hbehind : ∀ i ∈ Mark.insertions (counts.bump .func) (ds.map statementMark),
      span.start + 1 ≤ i.offset :=
    le_of_mem_insertions_statementMarks fun d hmem => (hf.inside d hmem).1
  have hsize : span.start + byteSize ['\x7b'] = span.start + 1 := rfl
  refine ⟨⟨hbrace.start_isBoundary, hrow.stop_isBoundary,
    (Nat.le_succ _).trans hrow.start_le_stop⟩, ?_⟩
  rw [hbrace.chars_append hrow, hchars,
    Insertion.woven_front (List.forall_mem_cons.mpr ⟨Nat.le_refl _, hbehind⟩), hsize,
    Insertion.woven_cons_here rfl hbehind, woven_statementMarks hf.row hf.span_in
      hbrace.stop_isBoundary]
  rfl

end directives

end Node

namespace Program

variable {p : Program} {n : Node} {span : Span} {ds later : List Node} {r : Instrumentation}

/-- The marks of a program but for those of a function's body, none of which falls into that. -/
theorem exists_marks_around_body {body : List Node} (h : p.Nested) (hn : n ∈ p.reached)
    (hb : n.body? = some (span, body)) : ∃ before after,
      p.marks = before ++ n.bodyMark span :: ((Node.block span body).marks p.source ++ after) ∧
      ∀ m ∈ before ++ after, m.offset ≤ span.start ∨ span.stop ≤ m.offset := by
  obtain ⟨before, after, hmarks, hspares⟩ := marks_around h hn
  obtain ⟨params, hchildren, hfunc⟩ := Node.exists_params hb
  have hnested := everywhere_of_mem_reached h.items hn
  have hinside := hnested.here.inside _ (Node.mem_children_of_body? hb)
  have hparted := hnested.here.parted
  rw [hchildren] at hparted
  refine ⟨before ++ params.flatMap (Node.marks p.source), after, ?_, fun m hm => ?_⟩
  · rw [hmarks, hfunc]
    simp
  · have hcases : m ∈ before ++ after ∨ m ∈ params.flatMap (Node.marks p.source) := by
      simp only [List.mem_append] at hm ⊢
      tauto
    rcases hcases with hm | hm
    · exact Node.outside_of_spares (Node.isBlock_of_body? hb) hinside (hspares m hm)
    · obtain ⟨param, hparam, hm⟩ := List.mem_flatMap.mp hm
      have hin := Node.mark_in_region (hnested.child (hchildren ▸ List.mem_append_left _ hparam)) hm
      rcases (List.pairwise_append.mp hparted).2.2 param hparam _ (.head _) with hpart | hpart
      · exact .inl (hin.2.trans hpart)
      · exact .inr (hpart.le.trans hin.1)

/-- The probes of statements in a row have numbers in a row. -/
theorem reports_statementMarks {before after : List Mark} {ns : List Node}
    (h : p.marks = before ++ (ns.map Node.statementMark ++ after)) {k : Nat} {s : Node}
    (hk : ns[k]? = some s) : p.Reports .stmt ((Mark.counted {} before).get .stmt + k) s.span := by
  have hitems : Mark.items .stmt p.marks =
      Mark.items .stmt before ++ (ns.map Node.span ++ Mark.items .stmt after) := by
    rw [h, Mark.items, List.flatMap_append, List.flatMap_append, List.flatMap_map]
    refine congrArg (_ ++ ·) (congrArg (· ++ _) ?_)
    exact List.map_eq_flatMap.symm
  have hlt : k < (ns.map Node.span).length := by
    rw [List.length_map]
    exact (List.getElem?_eq_some_iff.mp hk).1
  refine reports_of_items ?_
  rw [hitems, ← Mark.length_items, List.getElem?_append_right (Nat.le_add_right _ _),
    Nat.add_sub_cancel_left, List.getElem?_append_left hlt, List.getElem?_map, hk]
  rfl

/-- Between the brace of a body and the end of its directives nothing is inserted but the probe of
the function and those of the directives. -/
theorem filter_insertions_prologue {before after : List Mark}
    (hmarks : p.marks = before ++ n.bodyMark span ::
      ((Node.block span (ds ++ later)).marks p.source ++ after))
    (hout : ∀ m ∈ before ++ after, m.offset ≤ span.start ∨ span.stop ≤ m.offset)
    (hd : ∀ d ∈ ds, d.isDirective = true) (hf : Node.Front p.source span ds later) :
    p.insertions.filter (Span.holds ⟨span.start, Node.rowStop (span.start + 1) ds⟩ ·.offset) =
      ⟨span.start + 1, " " ++ Category.func.probe ((Mark.counted {} before).get .func) ++ ";"⟩ ::
        Mark.insertions ((Mark.counted {} before).bump .func) (ds.map Node.statementMark) := by
  let inside : Span := ⟨span.start, Node.rowStop (span.start + 1) ds⟩
  have hall : ∀ m ∈ n.bodyMark span :: ds.map Node.statementMark,
      inside.start < m.offset ∧ m.offset < inside.stop :=
    List.forall_mem_cons.mpr ⟨⟨Nat.lt_succ_self _, hf.lt_stop⟩,
      List.forall_mem_map.mpr fun d hmem => hf.inside d hmem⟩
  have hbefore : ∀ m ∈ before, m.offset ≤ inside.start ∨ inside.stop ≤ m.offset := fun m hm =>
    (hout m (List.mem_append_left _ hm)).imp_right hf.stop_le.trans
  have hafter : ∀ m ∈ (ProbeStep.statements later).flatMap (ProbeStep.marks p.source) ++ after,
      m.offset ≤ inside.start ∨ inside.stop ≤ m.offset :=
    List.forall_mem_append.mpr ⟨fun m hm => .inr (hf.le_later m hm),
      fun m hm => (hout m (List.mem_append_right _ hm)).imp_right hf.stop_le.trans⟩
  have hsplit : p.marks = before ++ ((n.bodyMark span :: ds.map Node.statementMark) ++
      ((ProbeStep.statements later).flatMap (ProbeStep.marks p.source) ++ after)) := by
    rw [hmarks, Node.marks_block_of_isDirective hd]
    simp
  rw [insertions, hsplit, Mark.insertions_append, Mark.insertions_append, List.filter_append,
    List.filter_append, Mark.filter_insertions_eq_nil hbefore, Mark.filter_insertions_eq_self hall,
    Mark.filter_insertions_eq_nil hafter, List.nil_append, List.append_nil]
  simp [Mark.insertions, Node.bodyMark, Piece.render, String.append_assoc]

/-- A function that is reached, and that starts with directives, shows its own probe behind its brace
and next the directives with theirs. -/
theorem shows_prologue (h : p.Nested) (hl : ∀ a ∈ p.items, a.Everywhere (Node.Laid p.source.toList))
    (hr : r.program = p.print) (hn : n ∈ p.reached) (hd : n.HasPrologue span ds later) :
    ∃ id first, p.Reports .func id n.span ∧
      (∀ k d, ds[k]? = some d → p.Reports .stmt (first + k) d.span) ∧
      p.Shows r ⟨span.start, Node.rowStop (span.start + 1) ds⟩
        ('\x7b' :: ((" " ++ Category.func.probe id ++ ";").toList ++
          Node.probedRow p.source.toList first (span.start + 1) ds)) := by
  have hnested := everywhere_of_mem_reached h.items hn
  have hf := Node.front_of_hasPrologue hd hnested (everywhere_of_mem_reached hl hn)
  have hblock := hnested.child (Node.mem_children_of_body? hd.body_eq)
  obtain ⟨before, after, hmarks, hout⟩ := exists_marks_around_body h hn hd.body_eq
  obtain ⟨hin, hwoven⟩ := Node.woven_prologue hblock.here hf (Mark.counted {} before)
  refine ⟨(Mark.counted {} before).get .func, (Mark.counted {} before).get .stmt, ?_,
    fun k d hk => ?_, ?_⟩
  · refine reports_of_items ?_
    rw [hmarks]
    exact Mark.items_counted rfl
  · have hcounts : (Mark.counted {} (before ++ [n.bodyMark span])).get .stmt =
        (Mark.counted {} before).get .stmt := by
      rw [Mark.counted_append]
      rfl
    have hsplit : p.marks = (before ++ [n.bodyMark span]) ++ (ds.map Node.statementMark ++
        ((ProbeStep.statements later).flatMap (ProbeStep.marks p.source) ++ after)) := by
      rw [hmarks, Node.marks_block_of_isDirective hd.isDirective]
      simp
    rw [← hcounts]
    exact reports_statementMarks hsplit hk
  · have hshows := shows_woven h hr hin ((Nat.lt_succ_self _).trans hf.lt_stop)
    rwa [filter_insertions_prologue hmarks hout hd.isDirective hf, hwoven] at hshows

/-- A function that is not reached shows its body as it is in the source. -/
theorem shows_body {body : List Node} (h : p.Nested) (hr : r.program = p.print)
    (hn : n ∈ p.nodes) (hreached : n ∉ p.reached) (hb : n.body? = some (span, body)) :
    p.Shows r span (span.chars p.source.toList) := by
  have hnested := everywhere_of_mem_nodes h.items hn
  have hmem := Node.mem_children_of_body? hb
  have hbody := (hnested.child hmem).here
  have hnone : p.insertions.filter (span.holds ·.offset) = [] := by
    refine Mark.filter_insertions_eq_nil (fun m hm => ?_) _
    exact Node.outside_of_spares (Node.isBlock_of_body? hb) (hnested.here.inside _ hmem)
      (spares_of_not_reached h hn hreached hm)
  have hin : span.In p.source.toList := hbody.region_in
  have hshows := shows_woven h hr hin (Node.start_lt_stop_of_isBlock hbody rfl)
  rwa [hnone, Insertion.woven_nil] at hshows

/-- A function whose body starts with directives shows its own probe behind its brace, and next the
directives, each behind a probe of its own. In front of them and between them is what was there in
the source. A function that is not reached shows its body as it was. -/
theorem directives_probed (hp : parse p.source = .ok p) (hs : bareText p.source = p.source.toList)
    (h : p.Nested) (hn : n ∈ p.nodes) (hd : n.HasPrologue span ds later) :
    Node.InRow (NextAt p.source.toList) (span.start + 1) ds ∧ ∃ r, p.instrument? = some r ∧
      (n ∈ p.reached → ∃ id first, p.Reports .func id n.span ∧
        (∀ k d, ds[k]? = some d → p.Reports .stmt (first + k) d.span) ∧
        p.Shows r ⟨span.start, Node.rowStop (span.start + 1) ds⟩
          ('\x7b' :: ((" " ++ Category.func.probe id ++ ";").toList ++
            Node.probedRow p.source.toList first (span.start + 1) ds))) ∧
      (n ∉ p.reached → p.Shows r span (span.chars p.source.toList)) := by
  have hl := laid_items hp hs
  have hmem := Node.mem_children_of_body? hd.body_eq
  obtain ⟨r, hr, hprogram⟩ := exists_instrument h
  refine ⟨?_, r, hr, fun hreached => shows_prologue h hl hprogram hreached hd,
    fun hreached => shows_body h hprogram hn hreached hd.body_eq⟩
  exact (Node.inRow_append.mp (Node.inRow_block ((everywhere_of_mem_nodes h.items hn).child hmem).here
    ((everywhere_of_mem_nodes hl hn).child hmem).here)).1

/-- A choice by a function with two directives, and with another function as the test of a case. -/
def selecting : Program :=
  ⟨"switch (() => \x7b \x27a\x27; /* b */ \x27c\x27 \x7d) \x7b case () => \x7b \x27d\x27 \x7d: \x7d",
    false, [.switch ⟨0, 59⟩
      (.arrow ⟨8, 34⟩ [] (.block ⟨14, 34⟩
        [.other ⟨16, 20⟩ .expressionStatement [.literal ⟨16, 19⟩ .string],
        .other ⟨29, 32⟩ .expressionStatement [.literal ⟨29, 32⟩ .string]]))
      [.switchCase ⟨38, 57⟩ (some (.arrow ⟨43, 56⟩ [] (.block ⟨49, 56⟩
        [.other ⟨51, 54⟩ .expressionStatement [.literal ⟨51, 54⟩ .string]]))) []]]⟩

set_option maxRecDepth 4000 in
theorem parse_selecting : Program.parse selecting.source = .ok selecting := by
  unfold Program.parse
  cbv

theorem nested_selecting : selecting.Nested where
  items n hn := Node.everywhere_of_nests (List.all_eq_true.mp (by cbv) n hn)
  parted := List.pairwise_singleton _ _

theorem bareText_selecting : bareText selecting.source = selecting.source.toList := by cbv

theorem directives_probed_of_selecting : parse selecting.source = .ok selecting ∧
    ∃ r, selecting.instrument? = some r ∧
      (∃ id first, selecting.Reports .func id ⟨8, 34⟩ ∧ selecting.Reports .stmt first ⟨16, 20⟩ ∧
        selecting.Reports .stmt (first + 1) ⟨29, 32⟩ ∧
        selecting.Shows r ⟨14, 32⟩ ("\x7b ".toList ++ (Category.func.probe id).toList ++
          "; ".toList ++ (Category.stmt.probe first).toList ++ "; \x27a\x27; /* b */ ".toList ++
          (Category.stmt.probe (first + 1)).toList ++ "; \x27c\x27".toList)) ∧
      selecting.Shows r ⟨49, 56⟩ "\x7b \x27d\x27 \x7d".toList := by
  let first : Node := .other ⟨16, 20⟩ .expressionStatement [.literal ⟨16, 19⟩ .string]
  let second : Node := .other ⟨29, 32⟩ .expressionStatement [.literal ⟨29, 32⟩ .string]
  let chosen : Node := .arrow ⟨8, 34⟩ [] (.block ⟨14, 34⟩ [first, second])
  let only : Node := .other ⟨51, 54⟩ .expressionStatement [.literal ⟨51, 54⟩ .string]
  let tested : Node := .arrow ⟨43, 56⟩ [] (.block ⟨49, 56⟩ [only])
  have hchosen : chosen ∈ selecting.reached := by
    simp [chosen, first, second, selecting, reached, Node.reached_eq, Node.reachedChildren,
      Node.children]
  have htested : tested ∈ selecting.nodes := by
    simp [tested, only, selecting, nodes, Node.nodes_eq, Node.children]
  have hskipped : tested ∉ selecting.reached := by
    simp [tested, selecting, reached, Node.reached_eq, Node.reachedChildren, Node.children]
  have hprologue : chosen.HasPrologue ⟨14, 34⟩ [first, second] [] := ⟨rfl, by simp, by decide⟩
  have hprologue' : tested.HasPrologue ⟨49, 56⟩ [only] [] := ⟨rfl, by simp, by decide⟩
  obtain ⟨-, r, hr, hshows, -⟩ := directives_probed parse_selecting bareText_selecting
    nested_selecting (mem_nodes_of_mem_reached hchosen) hprologue
  obtain ⟨-, r', hr', -, hkept⟩ := directives_probed parse_selecting bareText_selecting
    nested_selecting htested hprologue'
  obtain rfl := Option.some.inj (hr.symm.trans hr')
  obtain ⟨id, k, hfunc, hstmts, htext⟩ := hshows hchosen
  refine ⟨parse_selecting, r, hr, ⟨id, k, hfunc, hstmts 0 _ rfl, hstmts 1 _ rfl, ?_⟩, ?_⟩
  · have hgap : Span.chars selecting.source.toList ⟨15, 16⟩ = " ".toList := by cbv
    have hfirst : Span.chars selecting.source.toList ⟨16, 20⟩ = "\x27a\x27;".toList := by cbv
    have hcomment : Span.chars selecting.source.toList ⟨20, 29⟩ = " /* b */ ".toList := by cbv
    have hsecond : Span.chars selecting.source.toList ⟨29, 32⟩ = "\x27c\x27".toList := by cbv
    simpa [Node.probedRow, Node.rowStop, first, second, Node.span, hgap, hfirst, hcomment,
      hsecond] using htext
  · have hbody : Span.chars selecting.source.toList ⟨49, 56⟩ = "\x7b \x27d\x27 \x7d".toList := by cbv
    exact hbody ▸ hkept hskipped

/-- The texts of the directives that each function starts with. -/
def prologues (p : Program) : List (List (List Char)) :=
  p.nodes.filterMap fun n => n.body?.map fun (_, body) =>
    (body.takeWhile Node.isDirective).map fun d => d.span.chars p.source.toList

def strict : Program :=
  ⟨"function f() \x7b \x27use strict\x27; \x7d", false, [.other ⟨0, 30⟩ .functionDeclaration
    [.func ⟨0, 30⟩ [] (.block ⟨13, 30⟩
      [.other ⟨15, 28⟩ .expressionStatement [.literal ⟨15, 27⟩ .string]])]]⟩

theorem parse_strict : Program.parse strict.source = .ok strict := by
  unfold Program.parse
  cbv

/-- The strict function with its probes. -/
def loosened : Program :=
  let probe (start : Nat) : Node := .other ⟨start, start + 20⟩ .expressionStatement
    [.call ⟨start, start + 19⟩ (.member ⟨start, start + 16⟩ (.member ⟨start, start + 12⟩
      (.name ⟨start, start + 7⟩ "__cov__") none) none)
      [.literal ⟨start + 17, start + 18⟩ .number]]
  ⟨"function f() \x7b __cov__.func.add(0); __cov__.stmt.add(0); \x27use strict\x27; \x7d", false,
    [.other ⟨0, 72⟩ .functionDeclaration [.func ⟨0, 72⟩ [] (.block ⟨13, 72⟩ [probe 15, probe 36,
      .other ⟨57, 70⟩ .expressionStatement [.literal ⟨57, 69⟩ .string]])]]⟩

set_option maxRecDepth 4000 in
theorem parse_loosened : Program.parse loosened.source = .ok loosened := by
  unfold Program.parse
  cbv

/-- Behind its probes the string of the strict function is no directive any more. -/
theorem not_prologues_kept_of_strict : ¬ ∀ (p q : Program) (r : Instrumentation),
    Program.parse p.source = .ok p → p.instrument? = some r → Program.parse r.program = .ok q →
      ∀ ds ∈ p.prologues, ds ≠ [] → ds ∈ q.prologues := by
  intro h
  have hprogram : strict.instrument?.map Instrumentation.program = some loosened.source := by cbv
  obtain ⟨r, hr, hsource⟩ := Option.map_eq_some_iff.mp hprogram
  have hp : strict.prologues = [["\x27use strict\x27;".toList]] := by cbv
  have hq : loosened.prologues = [[]] := by cbv
  have hkept := h strict loosened r parse_strict hr (hsource ▸ parse_loosened)
    ["\x27use strict\x27;".toList] (hp ▸ .head _) (by decide)
  rw [hq] at hkept
  simp at hkept

end Program

end Adequacy
