import Adequacy.Proofs.Marks
import Adequacy.Proofs.Weaving

namespace Adequacy

namespace Insertion

def edit (i : Insertion) : Edit := .insert i.offset i.text

/-- The edits that take ordered insertions out of the text that they are made in, when `shift` bytes
are inserted in front of them. -/
def removals (shift : Nat) : List Insertion → Patch
  | [] => []
  | i :: later =>
    let start := i.offset + shift
    ⟨⟨start, start + i.text.utf8ByteSize⟩, ""⟩ :: removals (shift + i.text.utf8ByteSize) later

variable {pos : Nat} {cs : List Char} {is : List Insertion}

theorem weave_cons {i : Insertion} {kept bs : List Char} (hstart : pos + byteSize kept = i.offset) :
    weave (kept ++ bs) pos (i :: is) =
      (weave bs i.offset is).map fun tail => kept ++ (i.text.toList ++ tail) := by
  rw [weave]
  split
  next hlt =>
    have hgap : i.offset - pos = byteSize kept := by omega
    simp only [hgap, isBoundary_byteSize_append, if_true, dropBytes_byteSize_append,
      takeBytes_byteSize_append, List.append_assoc]
  next hle =>
    obtain rfl := eq_nil_of_byteSize_eq_zero (show byteSize kept = 0 by omega)
    rw [← hstart]
    rfl

/-- Ordered insertions between the characters of a text are cuts that take nothing away, and the
swapped cuts take away what is inserted. -/
theorem exists_cuts (hs : is.Pairwise (·.offset ≤ ·.offset))
    (hi : ∀ i ∈ is, pos ≤ i.offset ∧ isBoundary (i.offset - pos) cs = true) :
    ∃ cuts rest, cs = Cut.before cuts rest ∧ weave cs pos is = some (Cut.after cuts rest) ∧
      is.map edit = Cut.edits pos cuts ∧
      ∀ shift, removals shift is = Cut.edits (pos + shift) (cuts.map Cut.swap) := by
  induction is generalizing pos cs with
  | nil => exact ⟨[], cs, rfl, rfl, rfl, fun _ => rfl⟩
  | cons i later ih =>
    obtain ⟨hlater, hs⟩ := List.pairwise_cons.mp hs
    obtain ⟨⟨hpos, hb⟩, hi⟩ := List.forall_mem_cons.mp hi
    obtain ⟨kept, bs, rfl, hsize⟩ := isBoundary_iff.mp hb
    have hstart : pos + byteSize kept = i.offset := by omega
    -- The later insertions fall into what is behind the first one, as their offsets are ordered.
    have hrest := isBoundary_behind hstart hlater fun j hj => (hi j hj).2
    obtain ⟨cuts, rest, rfl, hweave, hedits, hremovals⟩ := ih hs hrest
    refine ⟨⟨kept, [], i.text.toList⟩ :: cuts, rest, rfl, ?_, ?_, fun shift => ?_⟩
    · rw [weave_cons hstart, hweave]
      rfl
    · rw [List.map_cons, hedits, Cut.edits, hstart]
      simp [edit, Edit.insert, Span.point]
    · have hsize : byteSize i.text.toList = i.text.utf8ByteSize :=
        (utf8ByteSize_eq_byteSize i.text).symm
      have hshift : pos + shift + byteSize kept = i.offset + shift := by omega
      simp only [removals, List.map_cons, Cut.swap, Cut.edits, hshift, hsize, String.ofList_nil]
      rw [hremovals, Nat.add_assoc i.offset shift]

/-- Insertions between the characters of a source can be made, and taking their texts out where they
then stand leaves the source. What takes that back are the insertions again. -/
theorem apply_removals {source : String}
    (h : ∀ i ∈ is, isBoundary i.offset source.toList = true) :
    ∃ text, render? source is = some text ∧
      Patch.apply (removals 0 (inOrder is)) text = .ok (source, (inOrder is).map edit) := by
  obtain ⟨cuts, rest, hsource, hweave, hedits, hremovals⟩ := exists_cuts (pairwise_inOrder is)
    fun i hi => ⟨Nat.zero_le _, h i ((inOrder_perm is).mem_iff.mp hi)⟩
  have hback := Patch.apply_edits (cuts.map Cut.swap) rest
  rw [Cut.after_map_swap, Cut.map_swap_swap, ← hsource, String.ofList_toList] at hback
  refine ⟨_, by rw [render?_eq_weave h, hweave]; rfl, ?_⟩
  rw [hremovals, hedits]
  exact hback

end Insertion

namespace Node

/-- A block begins with its brace, and a function has a block. -/
def Opens (text : List Char) : Node → Prop
  | func _ _ body => body.isBlock = true
  | block span _ => (span.chars text).head? = some '\x7b'
  | _ => True

instance (text : List Char) (n : Node) : Decidable (n.Opens text) := by
  unfold Opens
  split <;> infer_instance

/-- What the places of probes take for granted of a node: it lies in the text and splits no
character, and a block begins with its brace. -/
structure Seated (text : List Char) (n : Node) : Prop where
  span_in : n.span.In text
  opens : n.Opens text

instance (text : List Char) (n : Node) : Decidable (n.Seated text) :=
  decidable_of_iff (n.span.In text ∧ n.Opens text) ⟨fun ⟨h1, h2⟩ => ⟨h1, h2⟩,
    fun h => ⟨h.span_in, h.opens⟩⟩

end Node

/-- The offset behind the brace of a block falls between characters. -/
theorem Span.In.isBoundary_succ {text : List Char} {s : Span} (h : s.In text)
    (hb : (s.chars text).head? = some '\x7b') : isBoundary (s.start + 1) text = true := by
  obtain ⟨as, mid, bs, htext, hstart, hstop⟩ := h.exists_text
  obtain ⟨rest, hrest⟩ := List.head?_eq_some_iff.mp hb
  rw [Span.chars_eq htext hstart hstop] at hrest
  refine isBoundary_iff.mpr ⟨as ++ ['\x7b'], rest ++ bs, by rw [htext, hrest]; simp, ?_⟩
  rw [byteSize_append, hstart]
  rfl

namespace ProbeStep

variable {source : String} {n : Node} {c : Category} {item : Span}

/-- A mark falls between characters of the text. -/
def Between (text : List Char) : ProbeStep → Prop
  | mark m => isBoundary m.offset text = true
  | visit _ => True

theorem between_visits {text : List Char} (ns : List Node) : ∀ s ∈ visits ns, s.Between text := by
  simp [visits, Between]

theorem between_statements {text : List Char} {ns : List Node}
    (h : ∀ n ∈ ns, n.Seated text) : ∀ s ∈ statements ns, s.Between text := by
  intro s hs
  obtain ⟨n, hn, hs⟩ := List.mem_flatMap.mp hs
  have hstart := (h n hn).span_in.start_isBoundary
  split at hs <;> simp only [List.mem_cons, List.not_mem_nil, or_false] at hs
  · rw [hs]
    trivial
  · rcases hs with rfl | rfl
    · exact hstart
    · trivial

theorem between_wrapped {text : List Char} (h : n.Seated text) :
    ∀ s ∈ wrapped c item n, s.Between text := by
  simp [wrapped, Between, h.span_in.start_isBoundary, h.span_in.stop_isBoundary]

theorem between_openedBlock {text : List Char} (h : n.Seated text) (hb : n.isBlock = true) :
    ∀ s ∈ openedBlock c item n, s.Between text := by
  obtain ⟨span, body, rfl⟩ := Node.eq_block_of_isBlock hb
  have hopen := h.span_in.isBoundary_succ h.opens
  simpa [openedBlock, Between] using hopen

theorem between_body {text : List Char} (item : Option (Category × Span)) (h : n.Seated text) :
    ∀ s ∈ body item n, s.Between text := by
  by_cases hb : n.isBlock = true
  · obtain ⟨span, ns, rfl⟩ := Node.eq_block_of_isBlock hb
    cases item with
    | none => simp [body, Between]
    | some item => exact between_openedBlock h hb
  · rw [Bool.not_eq_true] at hb
    have hs : ∀ s ∈ statements [n], s.Between text := between_statements (by simpa using h)
    rw [body_of_isBlock_eq_false item hb]
    simp only [List.forall_mem_append, List.forall_mem_singleton]
    exact ⟨⟨h.span_in.start_isBoundary, hs⟩, h.span_in.stop_isBoundary⟩

theorem between_operand {text : List Char} (h : n.Seated text) :
    ∀ s ∈ operand n, s.Between text := by
  unfold operand
  split
  · simp [Between]
  · exact between_wrapped h

theorem isBoundary_caseStart {span : Span} {test : Option Node} (h : span.In source.toList) :
    isBoundary (caseStart source span test) source.toList = true := by
  unfold caseStart
  dsimp only
  split
  next hfind => exact (Token.find?_reads hfind).1.stop_isBoundary
  next => exact h.stop_isBoundary

theorem between_ofNode (h : n.Seated source.toList)
    (hc : ∀ c ∈ n.children, c.Seated source.toList) :
    ∀ s ∈ ofNode source n, s.Between source.toList := by
  cases n <;> simp only [Node.children, List.forall_mem_append, List.forall_mem_cons] at hc
  case func span params body =>
    rw [ofNode, List.forall_mem_append]
    exact ⟨between_visits params, between_openedBlock hc.2.1 h.opens⟩
  case arrow span params body =>
    unfold ofNode
    dsimp only
    rw [List.forall_mem_append]
    refine ⟨between_visits params, ?_⟩
    split
    · exact between_openedBlock hc.2.1 rfl
    · simp [Between, hc.2.1.span_in.start_isBoundary, hc.2.1.span_in.stop_isBoundary]
  case declarator span target init =>
    rw [ofNode, List.forall_mem_cons, List.forall_mem_flatMap]
    exact ⟨trivial, fun e he => between_wrapped (hc.2 e he)⟩
  case defaulted span target value =>
    rw [ofNode, List.forall_mem_cons]
    exact ⟨trivial, between_wrapped hc.2.1⟩
  case block span body => exact between_statements hc
  case staticBlock span body => exact between_statements hc
  case switchCase span test body =>
    rw [ofNode, List.forall_mem_cons]
    exact ⟨isBoundary_caseStart h.span_in, between_statements hc.2⟩
  case ifElse span test yes no =>
    unfold ofNode
    dsimp only
    rw [List.forall_mem_append, List.forall_mem_cons]
    refine ⟨⟨trivial, between_body _ hc.2.1⟩, ?_⟩
    cases no with
    | none =>
      rw [List.forall_mem_singleton]
      exact h.span_in.stop_isBoundary
    | some no => exact between_body _ (hc.2.2 no (.head _))
  case conditional span test yes no =>
    rw [ofNode, List.forall_mem_append, List.forall_mem_cons]
    exact ⟨⟨trivial, between_wrapped hc.2.1⟩, between_wrapped hc.2.2.1⟩
  case logical span op left right =>
    rw [ofNode, List.forall_mem_append]
    exact ⟨between_operand hc.1, between_operand hc.2.1⟩
  case labeled span s =>
    rw [ofNode]
    split
    · simp [Between]
    · exact between_body none hc.1
  case whileLoop span test s =>
    rw [ofNode, List.forall_mem_cons]
    exact ⟨trivial, between_body none hc.2.1⟩
  case doWhile span s test =>
    rw [ofNode, List.forall_mem_cons]
    exact ⟨trivial, between_body none hc.2.1⟩
  case forLoop span init test step s =>
    rw [ofNode, List.forall_mem_append]
    exact ⟨between_visits _, between_body none hc.2.1⟩
  case forEach span left right s =>
    rw [ofNode, List.forall_mem_cons]
    exact ⟨trivial, between_body none hc.2.2.1⟩
  all_goals exact between_visits _

end ProbeStep

/-- All marks of a node and of what is below it are between characters of the source. -/
theorem Node.isBoundary_marks {source : String} {n : Node}
    (h : n.Everywhere (Seated source.toList)) :
    ∀ m ∈ n.marks source, isBoundary m.offset source.toList = true := by
  induction n using induct with
  | step n ih =>
    have hsteps := ProbeStep.between_ofNode h.here fun c hc => (h.child hc).here
    intro m hm
    rw [marks_eq] at hm
    obtain ⟨step, hstep, hm⟩ := List.mem_flatMap.mp hm
    cases step with
    | mark m' =>
      cases List.mem_singleton.mp hm
      exact hsteps _ hstep
    | visit c =>
      have hc := ProbeStep.mem_children_of_visit hstep
      exact ih c hc (h.child hc) m hm

namespace Program

def Seated (p : Program) : Prop := ∀ n ∈ p.items, n.Everywhere (Node.Seated p.source.toList)

/-- Every probe is put between characters of the source, so the program with its probes exists, and
without the inserted texts it is the source. -/
theorem instrument?_removes {p : Program} (h : p.Seated) :
    (∀ i ∈ p.insertions,
      i.offset ≤ p.source.utf8ByteSize ∧ isBoundary i.offset p.source.toList = true) ∧
    ∃ r, p.instrument? = some r ∧
      Patch.apply (Insertion.removals 0 (Insertion.inOrder p.insertions)) r.program =
        .ok (p.source, (Insertion.inOrder p.insertions).map Insertion.edit) := by
  have hb (i) (hi : i ∈ p.insertions) : isBoundary i.offset p.source.toList = true := by
    obtain ⟨m, hm, ho⟩ := Mark.exists_of_mem_insertions hi
    obtain ⟨n, hn, hm⟩ := List.mem_flatMap.mp hm
    rw [← ho]
    exact Node.isBoundary_marks (h n hn) m hm
  obtain ⟨text, hrender, happly⟩ := Insertion.apply_removals hb
  have hr : p.instrument? =
      some ⟨text, p.target .func, p.target .stmt, p.target .branch⟩ := by
    rw [instrument?, hrender]
    rfl
  exact ⟨fun i hi => ⟨le_of_isBoundary (hb i hi), hb i hi⟩, _, hr, happly⟩

/-- A case with a comment in front of its colon, and a statement right behind it. -/
def labelled : Program :=
  ⟨"switch(a)\x7bcase'é'/*:*/:ü\x7d", false, [.switch ⟨0, 27⟩ (.name ⟨7, 8⟩ "a")
    [.switchCase ⟨10, 26⟩ (some (.literal ⟨14, 18⟩ .string))
      [.other ⟨24, 26⟩ .expressionStatement [.name ⟨24, 26⟩ "ü"]]]]⟩

theorem parse_labelled : Program.parse labelled.source = .ok labelled := by
  unfold Program.parse
  cbv

theorem seated_labelled : labelled.Seated := fun n hn =>
  Node.everywhere_of_passes (List.all_eq_true.mp (by cbv) n hn)

theorem instrument?_removes_of_labelled : parse labelled.source = .ok labelled ∧
    ∃ r, labelled.instrument? = some r ∧
      Patch.apply [⟨⟨24, 47⟩, ""⟩, ⟨⟨47, 68⟩, ""⟩] r.program =
        .ok (labelled.source,
          [⟨⟨24, 24⟩, " __cov__.branch.add(0);"⟩, ⟨⟨24, 24⟩, "__cov__.stmt.add(0); "⟩]) := by
  obtain ⟨-, r, hr, happly⟩ := instrument?_removes seated_labelled
  have hinsertions : Insertion.inOrder labelled.insertions =
      [⟨24, " __cov__.branch.add(0);"⟩, ⟨24, "__cov__.stmt.add(0); "⟩] := by cbv
  rw [hinsertions] at happly
  exact ⟨parse_labelled, r, hr, happly⟩

end Program

end Adequacy
