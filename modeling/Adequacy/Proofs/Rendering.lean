import Adequacy.Proofs.Marks
import Adequacy.Proofs.Printing

namespace Adequacy

/-- Prints a piece of an inserted text. -/
def Piece.printer : Piece → Printer
  | .text t => .text t
  | .probe c _ => .probe c

namespace Printer

variable {p : Printer} {ps qs : List Printer} {counts : ProbeCounts}

theorem concat_append (ps qs : List Printer) (counts : ProbeCounts) : concat (ps ++ qs) counts =
    ((concat ps counts).1 ++ (concat qs (concat ps counts).2).1,
      (concat qs (concat ps counts).2).2) := by
  induction ps generalizing counts with
  | nil => rfl
  | cons p ps ih => simp only [List.cons_append, concat, ih, List.append_assoc]

@[simp] theorem concat_single (p : Printer) : concat [p] = p := by
  funext counts
  simp [concat]

theorem concat_text_text (a b : String) (ps : List Printer) :
    concat (text a :: text b :: ps) = concat (text (a ++ b) :: ps) := by
  funext counts
  simp [concat, text]

/-- Pieces are printed as they are rendered. -/
theorem concat_pieces (pieces : List Piece) (counts : ProbeCounts) :
    concat (pieces.map Piece.printer) counts =
      ((Piece.render counts pieces).1.toList, (Piece.render counts pieces).2) := by
  induction pieces generalizing counts with
  | nil => rfl
  | cons piece pieces ih =>
    cases piece <;>
      simp [concat, Piece.printer, Piece.render, text, probe, ih, String.toList_append]

/-- The printer prints the text under a span with the insertions that marks stand for. -/
structure Renders (text : List Char) (marks : List Mark) (span : Span) (p : Printer) : Prop where
  span_in : span.In text
  mark_in : ∀ m ∈ marks,
    span.start ≤ m.offset ∧ m.offset ≤ span.stop ∧ isBoundary m.offset text = true
  print_eq : ∀ counts, p counts =
    (Insertion.woven (Mark.insertions counts marks) span.start (span.chars text),
      Mark.counted counts marks)

namespace Renders

variable {text : List Char} {marks : List Mark} {span : Span} {pieces : List Piece}

theorem offset_in (h : Renders text marks span p) {i : Insertion}
    (hi : i ∈ Mark.insertions counts marks) : span.start ≤ i.offset ∧ i.offset ≤ span.stop := by
  obtain ⟨m, hm, ho⟩ := Mark.exists_of_mem_insertions hi
  have := h.mark_in m hm
  rw [← ho]
  exact ⟨this.1, this.2.1⟩

/-- Without marks the text is printed as it is. -/
theorem unmarked {t : String} (hin : span.In text) (ht : span.chars text = t.toList) :
    Renders text [] span (.text t) where
  span_in := hin
  mark_in := by simp
  print_eq counts := by
    rw [Mark.insertions, Insertion.woven_nil, ht]
    rfl

/-- Pieces that are marked at the start of a span are printed first. -/
theorem before (pieces : List Piece) (h : Renders text marks span (concat ps)) :
    Renders text (⟨span.start, pieces⟩ :: marks) span
      (concat (pieces.map Piece.printer ++ ps)) where
  span_in := h.span_in
  mark_in := List.forall_mem_cons.mpr
    ⟨⟨Nat.le_refl _, h.span_in.start_le_stop, h.span_in.start_isBoundary⟩, h.mark_in⟩
  print_eq counts := by
    rw [concat_append, concat_pieces, h.print_eq, Mark.insertions, Mark.counted,
      Insertion.woven_cons_here rfl fun i hi => (h.offset_in hi).1]

/-- Pieces that are marked at the end of a span are printed last. -/
theorem behind (h : Renders text marks span (concat ps)) (pieces : List Piece) :
    Renders text (marks ++ [⟨span.stop, pieces⟩]) span
      (concat (ps ++ pieces.map Piece.printer)) where
  span_in := h.span_in
  mark_in := List.forall_mem_append.mpr
    ⟨h.mark_in, by simpa using ⟨h.span_in.start_le_stop, h.span_in.stop_isBoundary⟩⟩
  print_eq counts := by
    have hstop : span.stop = span.start + byteSize (span.chars text) := by
      have := h.span_in.start_le_stop
      rw [h.span_in.byteSize_chars]
      omega
    rw [concat_append, concat_pieces, h.print_eq, Mark.insertions_append, Mark.counted_append]
    simp only [Mark.insertions, Mark.counted]
    rw [Insertion.woven_concat hstop]
    rw [← hstop]
    exact fun i hi => (h.offset_in hi).2

/-- Pieces that are marked behind an opening brace are printed behind it. -/
theorem opened (pieces : List Piece) (h : Renders text marks span p)
    (hopen : (span.chars text).head? = some '\x7b') (hmarks : ∀ m ∈ marks, span.start < m.offset) :
    Renders text (⟨span.start + 1, pieces⟩ :: marks) span
      (concat (.text "\x7b" :: (pieces.map Piece.printer ++ [p.tail]))) := by
  obtain ⟨rest, hchars⟩ := List.head?_eq_some_iff.mp hopen
  have hsize := h.span_in.byteSize_chars
  rw [hchars, byteSize_cons] at hsize
  have hone : ('\x7b' : Char).utf8Size = 1 := rfl
  refine ⟨h.span_in, List.forall_mem_cons.mpr ⟨⟨by simp, ?_, ?_⟩, h.mark_in⟩, fun counts => ?_⟩
  · dsimp only
    omega
  · obtain ⟨as, mid, bs, htext, hstart, hstop⟩ := h.span_in.exists_text
    have hmid := Span.chars_eq htext hstart hstop
    rw [hchars] at hmid
    refine isBoundary_iff.mpr ⟨as ++ ['\x7b'], rest ++ bs, by rw [htext, ← hmid]; simp, ?_⟩
    rw [byteSize_append, hstart]
    rfl
  · have hafter (counts) : ∀ i ∈ Mark.insertions counts marks, span.start + 1 ≤ i.offset := by
      intro i hi
      obtain ⟨m, hm, ho⟩ := Mark.exists_of_mem_insertions hi
      rw [← ho]
      exact hmarks m hm
    have hfront {is : List Insertion} (his : ∀ i ∈ is, span.start + 1 ≤ i.offset) :
        Insertion.woven is span.start (span.chars text) =
          '\x7b' :: Insertion.woven is (span.start + 1) rest := by
      have h : Insertion.woven is span.start (['\x7b'] ++ rest) = _ := Insertion.woven_front his
      rw [hchars]
      exact h
    rw [Mark.insertions, Mark.counted, hfront (by simpa using hafter _),
      Insertion.woven_cons_here rfl (hafter _)]
    simp only [concat, concat_append, concat_pieces, Printer.text, tail, h.print_eq,
      hfront (hafter _)]
    simp

end Renders

end Printer

namespace PrintPart

/-- The part prints the text under its span with what steps of the instrumentation insert in it. -/
def Prints (source : String) (steps : List ProbeStep) (p : PrintPart) : Prop :=
  Printer.Renders source.toList (steps.flatMap (ProbeStep.marks source)) p.span (p.printer source)

/-- Each part prints what some of the steps insert, in the order of the steps. -/
inductive AllPrint (source : String) : List ProbeStep → List PrintPart → Prop where
  | nil : AllPrint source [] []
  | cons {steps laterSteps : List ProbeStep} {p : PrintPart} {later : List PrintPart}
      (h : p.Prints source steps) (hl : AllPrint source laterSteps later) :
      AllPrint source (steps ++ laterSteps) (p :: later)

namespace AllPrint

variable {source : String} {steps laterSteps : List ProbeStep}
  {p : PrintPart} {parts later : List PrintPart}

theorem single (h : p.Prints source steps) : AllPrint source steps [p] := by
  simpa using cons h nil

theorem append (h : AllPrint source steps parts) (hl : AllPrint source laterSteps later) :
    AllPrint source (steps ++ laterSteps) (parts ++ later) := by
  induction h with
  | nil => exact hl
  | cons h _ ih =>
    rw [List.append_assoc]
    exact cons h ih

theorem map {ns : List Node} {f : Node → List ProbeStep} {g : Node → PrintPart}
    (h : ∀ n ∈ ns, (g n).Prints source (f n)) : AllPrint source (ns.flatMap f) (ns.map g) := by
  induction ns with
  | nil => exact nil
  | cons n ns ih =>
    obtain ⟨hn, hns⟩ := List.forall_mem_cons.mp h
    exact cons hn (ih hns)

/-- What is printed for the parts are stretches of the source with the insertions of the steps. -/
theorem exists_stretches (h : AllPrint source steps parts) (counts : ProbeCounts) :
    ∃ stretches : List Stretch, stretches.map Stretch.span = parts.map PrintPart.span ∧
      (∀ s ∈ stretches, s.In source.toList) ∧
      Printer.edits (parts.map fun p => (p.span, p.printer source)) counts =
        (stretches.map (Stretch.edit source.toList),
          Mark.counted counts (steps.flatMap (ProbeStep.marks source))) ∧
      Mark.insertions counts (steps.flatMap (ProbeStep.marks source)) =
        stretches.flatMap Stretch.insertions := by
  induction h generalizing counts with
  | nil => exact ⟨[], rfl, by simp, rfl, rfl⟩
  | @cons steps laterSteps p later h _ ih =>
    obtain ⟨stretches, hspans, hin, hedits, hinsertions⟩ :=
      ih (Mark.counted counts (steps.flatMap (ProbeStep.marks source)))
    let s : Stretch :=
      ⟨p.span, Mark.insertions counts (steps.flatMap (ProbeStep.marks source))⟩
    have hs : s.In source.toList := ⟨h.span_in, fun i hi => h.offset_in hi⟩
    refine ⟨s :: stretches, by rw [List.map_cons, hspans]; rfl, List.forall_mem_cons.mpr ⟨hs, hin⟩,
      ?_, ?_⟩
    · simp only [List.map_cons, Printer.edits, h.print_eq, hedits, List.flatMap_append,
        Mark.counted_append]
      rfl
    · rw [List.flatMap_append, Mark.insertions_append, hinsertions]
      rfl

theorem mark_in {lo hi : Nat} (h : AllPrint source steps parts)
    (hspan : ∀ p ∈ parts, lo ≤ p.span.start ∧ p.span.stop ≤ hi) :
    ∀ m ∈ steps.flatMap (ProbeStep.marks source),
      lo ≤ m.offset ∧ m.offset ≤ hi ∧ isBoundary m.offset source.toList = true := by
  induction h with
  | nil => simp
  | cons h _ ih =>
    obtain ⟨⟨hlo, hhi⟩, hlater⟩ := List.forall_mem_cons.mp hspan
    rw [List.flatMap_append]
    refine List.forall_mem_append.mpr ⟨fun m hm => ?_, ih hlater⟩
    have := h.mark_in m hm
    exact ⟨hlo.trans this.1, this.2.1.trans hhi, this.2.2⟩

/-- Copying a text but for its parts prints it with the insertions of all steps. -/
theorem copy {span : Span} (h : AllPrint source steps parts)
    (hp : (parts.map PrintPart.span).Pairwise Span.Parted)
    (hspan : ∀ p ∈ parts, span.start ≤ p.span.start ∧ p.span.stop ≤ span.stop)
    (hin : span.In source.toList) :
    Printer.Renders source.toList (steps.flatMap (ProbeStep.marks source)) span
      (.copy source.toList span (parts.map fun p => (p.span, p.printer source))) where
  span_in := hin
  mark_in := h.mark_in hspan
  print_eq counts := by
    obtain ⟨stretches, hspans, hall, hedits, hinsertions⟩ := h.exists_stretches counts
    have hparted : stretches.Pairwise (·.span.Parted ·.span) := by
      rw [← hspans, List.pairwise_map] at hp
      exact hp
    have hinside (s) (hs : s ∈ stretches) :
        span.start ≤ s.span.start ∧ s.span.stop ≤ span.stop := by
      have hmem : s.span ∈ parts.map PrintPart.span := hspans ▸ List.mem_map_of_mem hs
      obtain ⟨p, hp, heq⟩ := List.mem_map.mp hmem
      rw [← heq]
      exact hspan p hp
    rw [Printer.copy, hedits, hinsertions]
    exact congrArg (·, _) (Stretch.splice_inOrder hall hparted hinside hin)

end AllPrint

end PrintPart

end Adequacy
