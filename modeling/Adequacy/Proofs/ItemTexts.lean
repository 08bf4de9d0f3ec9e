import Adequacy.Proofs.PrintedProgram

namespace Adequacy

namespace Mark

/-- The mark of an expression that is put behind the probe of an operand. -/
def opening (offset : Nat) (item : Span) : Mark :=
  ⟨offset, [.text "(", .probe .branch item, .text ", "]⟩

def openings (ids : List Nat) : List Char :=
  ids.flatMap fun id => ("(" ++ Category.branch.probe id ++ ", ").toList

theorem textsAt_insertions {marks : List Mark} {pos : Nat}
    (h : ∀ m ∈ marks, m.offset = pos → ∃ item, m = opening pos item) (counts : ProbeCounts) :
    ∃ ids, Insertion.textsAt (insertions counts marks) pos = openings ids ∧
      ids.length = marks.countP (·.offset == pos) := by
  induction marks generalizing counts with
  | nil => exact ⟨[], rfl, rfl⟩
  | cons m marks ih =>
    obtain ⟨hm, hmarks⟩ := List.forall_mem_cons.mp h
    obtain ⟨ids, htext, hlength⟩ := ih hmarks (Piece.render counts m.pieces).2
    by_cases hpos : m.offset = pos
    · obtain ⟨item, rfl⟩ := hm hpos
      refine ⟨counts.get .branch :: ids, ?_, by simp [hlength, opening]⟩
      rw [openings, List.flatMap_cons, ← openings, ← htext]
      simp [insertions, Insertion.textsAt, opening, Piece.render]
    · refine ⟨ids, ?_, by simp [hlength, hpos]⟩
      rw [← htext]
      simp [insertions, Insertion.textsAt, hpos]

end Mark

/-- Behind what is inserted at its start a text begins as it did. -/
theorem Insertion.exists_woven (is : List Insertion) (pos : Nat) (cs : List Char) :
    ∃ later, woven is pos cs = textsAt is pos ++ later ∧ later.head? = cs.head? := by
  cases cs with
  | nil => exact ⟨[], (List.append_nil _).symm, rfl⟩
  | cons c cs => exact ⟨c :: woven is (pos + c.utf8Size) cs, rfl, rfl⟩

namespace Node

open ProbeStep (ofNode wrapped operand)

variable {source : String} {n : Node}

/-- Whether all that is inserted in a node but not in its children stands behind its start. The
operands of a logical expression may begin with it, and are not empty. -/
def isFronted (source : String) (n : Node) : Bool :=
  if n.logicalOp?.isSome then n.children.all fun c => c.region.start < c.region.stop
  else (ofNode source n).all fun
    | .mark m => n.region.start < m.offset
    | .visit _ => true

theorem mark_mem_operand {e : Node} {m : Mark} (h : .mark m ∈ operand e) :
    m = .opening e.span.start e.peel.span ∨ m.offset = e.span.stop := by
  unfold operand at h
  split at h
  · simp at h
  · simp only [wrapped, List.mem_cons, ProbeStep.mark.injEq, reduceCtorEq, false_or,
      List.not_mem_nil, or_false] at h
    rcases h with rfl | rfl
    · exact .inl rfl
    · exact .inr rfl

theorem opening_of_mark_mem (hn : n.Nested source) (hf : n.isFronted source = true) {m : Mark}
    (hm : .mark m ∈ ofNode source n) (ho : m.offset = n.region.start) :
    ∃ item, m = .opening n.region.start item := by
  unfold isFronted at hf
  split at hf
  next hlogical =>
    cases n with
    | logical span op left right =>
      obtain ⟨e, he, hm⟩ : ∃ e ∈ (logical span op left right).children, .mark m ∈ operand e := by
        simpa [ofNode, children] using hm
      have hstart := (hn.inside e he).1
      have hlt := of_decide_eq_true (List.all_eq_true.mp hf e he)
      have hregion := region_eq_span (hn.isFunc rfl e he)
      rw [hregion] at hstart hlt
      rcases mark_mem_operand hm with rfl | hstop
      · exact ⟨e.peel.span, congrArg (Mark.opening · _) ho⟩
      · omega
    | _ => cases hlogical
  next =>
    have hlt := List.all_eq_true.mp hf _ hm
    simp only [decide_eq_true_eq] at hlt
    omega

/-- What is inserted at the start of a node opens an operand. -/
theorem opening_of_mem_marks (hn : n.Everywhere (Nested source))
    (hf : n.Everywhere fun n => n.isFronted source = true) {m : Mark} (hm : m ∈ n.marks source)
    (ho : m.offset = n.region.start) : ∃ item, m = .opening n.region.start item := by
  induction n using Node.induct with
  | step n ih =>
    rw [marks_eq] at hm
    obtain ⟨step, hstep, hm⟩ := List.mem_flatMap.mp hm
    cases step with
    | mark mark =>
      obtain rfl := List.mem_singleton.mp hm
      exact opening_of_mark_mem hn.here hf.here hstep ho
    | visit c =>
      have hc := ProbeStep.mem_children_of_visit hstep
      have hstart := (hn.here.inside c hc).1
      have hle := ((printed_of_nested (hn.child hc)).renders.mark_in m hm).1
      -- Marks of a child stand within it, so one at the start of the node begins the child too.
      have heq : c.region.start = n.region.start := by omega
      exact heq ▸ ih c hc (hn.child hc) (hf.child hc) hm (ho.trans heq.symm)

end Node

/-- A cut puts the print of a node in its place. It opens the operands that the node begins with,
and then begins as the node does. -/
structure Node.Recast (source : String) (n : Node) (c : Cut) : Prop where
  old_eq : c.old = n.region.chars source.toList
  new_eq : ∃ counts, c.new = (n.print source counts).1
  begins : ∃ ids later, c.new = Mark.openings ids ++ later ∧ later.head? = c.old.head? ∧
    ids.length = (n.marks source).countP (·.offset == n.region.start)

theorem Node.recast {source : String} {n : Node} (hn : n.Everywhere (Nested source))
    (hf : n.Everywhere fun n => n.isFronted source = true) (kept : List Char)
    (counts : ProbeCounts) :
    n.Recast source ⟨kept, n.region.chars source.toList, (n.print source counts).1⟩ where
  old_eq := rfl
  new_eq := ⟨counts, rfl⟩
  begins := by
    obtain ⟨ids, htext, hlength⟩ := Mark.textsAt_insertions
      (fun m hm ho => opening_of_mem_marks hn hf hm ho) counts
    obtain ⟨later, hwoven, hhead⟩ := Insertion.exists_woven
      (Mark.insertions counts (n.marks source)) n.region.start (n.region.chars source.toList)
    refine ⟨ids, later, ?_, hhead, hlength⟩
    rw [(printed_of_nested hn).renders.print_eq, hwoven, htext]

theorem Printer.span_edits (parts : List (Span × Printer)) (counts : ProbeCounts) :
    (edits parts counts).1.map Edit.span = parts.map (·.1) := by
  induction parts generalizing counts with
  | nil => rfl
  | cons part later ih => simp [edits, ih]

namespace Program

variable {p : Program}

theorem exists_cuts {source : String} {lo : Nat} {ns : List Node}
    (hn : ∀ n ∈ ns, n.Everywhere (Node.Nested source))
    (hf : ∀ n ∈ ns, n.Everywhere fun n => n.isFronted source = true)
    (ho : ns.Pairwise (·.region.stop ≤ ·.region.start)) (hlo : ∀ n ∈ ns, lo ≤ n.region.start)
    (hb : isBoundary lo source.toList = true) (counts : ProbeCounts) :
    ∃ cuts rest, Span.chars source.toList ⟨lo, source.utf8ByteSize⟩ = Cut.before cuts rest ∧
      (Printer.edits (ns.map fun n => (n.region, n.print source)) counts).1 = Cut.edits lo cuts ∧
      List.Forall₂ (Node.Recast source) ns cuts := by
  -- `lo` is where the node in front ends, and its print hands on the counts.
  induction ns generalizing lo counts with
  | nil => exact ⟨[], _, rfl, rfl, .nil⟩
  | cons n ns ih =>
    obtain ⟨hn, hns⟩ := List.forall_mem_cons.mp hn
    obtain ⟨hf, hfs⟩ := List.forall_mem_cons.mp hf
    obtain ⟨hfirst, ho⟩ := List.pairwise_cons.mp ho
    have hstart := hlo n List.mem_cons_self
    have hin := hn.here.region_in
    have hend := (whole_in source).stop_isBoundary
    have hle := le_of_isBoundary hin.stop_isBoundary
    have hfront : Span.In source.toList ⟨lo, n.region.start⟩ := ⟨hb, hin.start_isBoundary, hstart⟩
    have hback : Span.In source.toList ⟨n.region.stop, source.utf8ByteSize⟩ :=
      ⟨hin.stop_isBoundary, hend, hle⟩
    have hrest : Span.In source.toList ⟨n.region.start, source.utf8ByteSize⟩ :=
      ⟨hin.start_isBoundary, hend, hin.start_le_stop.trans hle⟩
    obtain ⟨cuts, rest, hbefore, hedits, hcuts⟩ :=
      ih hns hfs ho hfirst hin.stop_isBoundary (n.print source counts).2
    refine ⟨⟨Span.chars source.toList ⟨lo, n.region.start⟩, n.region.chars source.toList,
      (n.print source counts).1⟩ :: cuts, rest, ?_, ?_, .cons (Node.recast hn hf _ counts) hcuts⟩
    · have hnode : Span.chars source.toList ⟨n.region.start, source.utf8ByteSize⟩ =
          n.region.chars source.toList ++ Cut.before cuts rest := by
        rw [← hbefore]
        exact Span.In.chars_append (a := n.region.start) (b := n.region.stop) hin hback
      rw [hfront.chars_append hrest, hnode]
      rfl
    · have hkept := hfront.byteSize_chars
      have hold := hin.byteSize_chars
      have hle := hin.start_le_stop
      dsimp only at hkept
      rw [List.map_cons, Printer.edits, Cut.edits, hkept, hold, Nat.add_sub_cancel' hstart,
        Nat.add_sub_cancel' hle, ← hedits]

/-- A statement that begins with an operand, and one that does not. -/
def guarded : Program :=
  ⟨"a&&b;c?d:e", false, [.other ⟨0, 5⟩ .expressionStatement
      [.logical ⟨0, 4⟩ .and (.name ⟨0, 1⟩ "a") (.name ⟨3, 4⟩ "b")],
    .other ⟨5, 10⟩ .expressionStatement
      [.conditional ⟨5, 10⟩ (.name ⟨5, 6⟩ "c") (.name ⟨7, 8⟩ "d") (.name ⟨9, 10⟩ "e")]]⟩

theorem parse_guarded : Program.parse guarded.source = .ok guarded := by
  unfold Program.parse
  cbv

theorem nested_guarded : guarded.Nested where
  items n hn := Node.everywhere_of_nests (List.all_eq_true.mp (by cbv) n hn)
  parted := by decide

/-- A line that ends without a semicolon, and an operand at the start of the next one. -/
def continued : Program :=
  ⟨"x\na&&b", false, [.other ⟨0, 1⟩ .expressionStatement [.name ⟨0, 1⟩ "x"],
    .other ⟨2, 6⟩ .expressionStatement
      [.logical ⟨2, 6⟩ .and (.name ⟨2, 3⟩ "a") (.name ⟨5, 6⟩ "b")]]⟩

theorem parse_continued : Program.parse continued.source = .ok continued := by
  unfold Program.parse
  cbv

end Program

end Adequacy
