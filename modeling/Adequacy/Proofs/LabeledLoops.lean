import Adequacy.Proofs.PrintedProgram
import Adequacy.Proofs.ProbedConstructs

namespace Adequacy

/-- One span ends before the other begins. -/
def Span.Apart (a b : Span) : Prop := a.stop ≤ b.start ∨ b.stop ≤ a.start

namespace Node

variable {source : String} {a b c n s : Node} {span : Span}

theorem mem_nodes_iff : n ∈ a.nodes ↔ n = a ∨ ∃ c ∈ a.children, n ∈ c.nodes := by
  rw [nodes_eq, List.mem_cons, List.mem_flatMap]

/-- A node stands in the texts of the nodes above it. -/
theorem region_of_mem_nodes (h : a.Everywhere (Nested source)) (hn : n ∈ a.nodes) :
    a.region.start ≤ n.region.start ∧ n.region.stop ≤ a.region.stop := by
  induction a using induct with
  | step a ih =>
    rcases mem_nodes_iff.mp hn with rfl | ⟨c, hc, hn⟩
    · exact ⟨Nat.le_refl _, Nat.le_refl _⟩
    · have hinside := h.here.inside c hc
      have hbelow := ih c hc (h.child hc) hn
      omega

theorem everywhere_of_mem_nodes {P : Node → Prop} (h : a.Everywhere P) (hn : n ∈ a.nodes) :
    n.Everywhere P := by
  induction a using induct with
  | step a ih =>
    rcases mem_nodes_iff.mp hn with rfl | ⟨c, hc, hn⟩
    · exact h
    · exact ih c hc (h.child hc) hn

/-- Two nodes are the same, or their texts do not overlap. -/
def Aside (a b : Node) : Prop := a = b ∨ a.region.Apart b.region

instance : Std.Symm Aside where
  symm x y h := by
    rcases h with rfl | h | h
    · exact .inl rfl
    · exact .inr (.inr h)
    · exact .inr (.inl h)

theorem aside_of_parted {ns : List Node} (h : ns.Pairwise (·.region.Parted ·.region))
    (ha : a ∈ ns) (hb : b ∈ ns) : a.Aside b := by
  have haside : ns.Pairwise Aside := h.imp fun {x y} hxy => by
    unfold Span.Parted at hxy
    unfold Aside Span.Apart
    omega
  exact haside.forall_of_forall (fun _ _ => .inl rfl) ha hb

/-- A block holds a character, its brace. -/
theorem start_lt_stop_of_isBlock (h : n.Nested source) (hb : n.isBlock = true) :
    n.span.start < n.span.stop := by
  obtain ⟨span, body, rfl⟩ := eq_block_of_isBlock hb
  obtain ⟨rest, hchars⟩ := List.head?_eq_some_iff.mp (isProper_block.mp h.isProper).1
  have hsize : byteSize (span.chars source.toList) = span.stop - span.start :=
    h.region_in.byteSize_chars
  have hone : ('\x7b' : Char).utf8Size = 1 := rfl
  rw [hchars, byteSize_cons, hone] at hsize
  dsimp only [Node.span]
  omega

/-- Whether a loop begins in front of its parts, as it does with its word. -/
def isHeaded (n : Node) : Bool :=
  !n.isLoop || n.children.all (n.region.start < ·.region.start)

end Node

namespace ProbeStep

open Node

variable {source : String} {c e n : Node} {k : Category} {item : Span}

/-- What is marked does not fall into the text of a node, unless it is right behind the brace of a
block. -/
def Spares (c : Node) : ProbeStep → Prop
  | mark m => m.offset ≤ c.region.start ∨ c.region.stop ≤ m.offset ∨
      c.isBlock = true ∧ m.offset = c.region.start + 1
  | visit _ => True

theorem spares_visits (ns : List Node) : ∀ s ∈ visits ns, s.Spares c := by
  simp [visits, Spares]

theorem spares_start (h : e.Aside c) (hf : e.isFunc = false) (he : e.span.start ≤ e.span.stop)
    (pieces : List Piece) : (mark ⟨e.span.start, pieces⟩).Spares c := by
  rw [← region_eq_span hf] at he ⊢
  rcases h with rfl | h | h
  · exact .inl (Nat.le_refl _)
  · exact .inl (he.trans h)
  · exact .inr (.inl h)

theorem spares_stop (h : e.Aside c) (hf : e.isFunc = false) (he : e.span.start ≤ e.span.stop)
    (pieces : List Piece) : (mark ⟨e.span.stop, pieces⟩).Spares c := by
  rw [← region_eq_span hf] at he ⊢
  rcases h with rfl | h | h
  · exact .inr (.inl (Nat.le_refl _))
  · exact .inl h
  · exact .inr (.inl (h.trans he))

/-- A child that is marked, seen from another child of the same node. -/
structure Beside (source : String) (c e : Node) : Prop where
  aside : e.Aside c
  isFunc : e.isFunc = false
  nested : e.Nested source

theorem Beside.start_le_stop (h : Beside source c e) : e.span.start ≤ e.span.stop := by
  rw [← region_eq_span h.isFunc]
  exact h.nested.region_in.start_le_stop

theorem spares_statements {ns : List Node} (h : ∀ e ∈ ns, Beside source c e) :
    ∀ s ∈ statements ns, s.Spares c := by
  intro s hs
  obtain ⟨e, he, hs⟩ := List.mem_flatMap.mp hs
  have hb := h e he
  split at hs <;> simp only [List.mem_cons, List.not_mem_nil, or_false] at hs
  · rw [hs]
    trivial
  · rcases hs with rfl | rfl
    · exact spares_start hb.aside hb.isFunc hb.start_le_stop _
    · trivial

theorem spares_wrapped (h : Beside source c e) : ∀ s ∈ wrapped k item e, s.Spares c := by
  simp only [wrapped, List.forall_mem_cons, List.not_mem_nil, false_implies, implies_true, and_true]
  exact ⟨spares_start h.aside h.isFunc h.start_le_stop _, trivial,
    spares_stop h.aside h.isFunc h.start_le_stop _⟩

theorem spares_openedBlock (h : Beside source c e) (hb : e.isBlock = true) :
    ∀ s ∈ openedBlock k item e, s.Spares c := by
  have hopen := start_lt_stop_of_isBlock h.nested hb
  simp only [openedBlock, List.forall_mem_cons, List.not_mem_nil, false_implies, implies_true,
    and_true]
  refine ⟨?_, trivial⟩
  have haside := h.aside
  unfold Aside Span.Apart at haside
  unfold Spares
  dsimp only
  rw [region_eq_span h.isFunc] at haside
  rcases haside with rfl | haside | haside
  · exact .inr (.inr ⟨hb, by rw [region_eq_span h.isFunc]⟩)
  · exact .inl (Nat.le_trans hopen haside)
  · exact .inr (.inl (haside.trans (Nat.le_succ _)))

theorem spares_body (item : Option (Category × Span)) (h : Beside source c e) :
    ∀ s ∈ body item e, s.Spares c := by
  by_cases hb : e.isBlock = true
  · obtain ⟨span, ns, rfl⟩ := eq_block_of_isBlock hb
    cases item with
    | none => simp [body, Spares]
    | some item => exact spares_openedBlock h hb
  · rw [Bool.not_eq_true] at hb
    have hs : ∀ s ∈ statements [e], s.Spares c := spares_statements (by simpa using h)
    rw [body_of_isBlock_eq_false item hb]
    simp only [List.forall_mem_append, List.forall_mem_singleton]
    exact ⟨⟨spares_start h.aside h.isFunc h.start_le_stop _, hs⟩,
      spares_stop h.aside h.isFunc h.start_le_stop _⟩

theorem spares_operand (h : Beside source c e) : ∀ s ∈ operand e, s.Spares c := by
  unfold operand
  split
  · simp [Spares]
  · exact spares_wrapped h

/-- The place behind the colon of a case is behind its test and in front of its statements. -/
theorem spares_caseStart {span : Span} {test : Option Node} {ns : List Node}
    (h : (switchCase span test ns).Nested source)
    (hc : c ∈ (switchCase span test ns).children) (pieces : List Piece) :
    (mark ⟨caseStart source span test, pieces⟩).Spares c := by
  obtain ⟨colon, hfind, -, hbody⟩ := isProper_switchCase.mp h.isProper
  have hstart : caseStart source span test = colon.stop := by
    rw [caseStart_eq, hfind]
    rfl
  rw [hstart]
  have hregion := region_eq_span (h.isFunc rfl c hc)
  rcases List.mem_append.mp hc with hc | hc
  · obtain rfl : test = some c := by simpa using hc
    obtain ⟨hin, hbehind, -⟩ := Token.find?_reads hfind
    exact .inr (.inl (hregion ▸ hbehind.trans hin.start_le_stop))
  · exact .inl (hregion ▸ hbody c hc)

/-- What a node marks by itself spares its children. -/
theorem spares_ofNode (h : n.Nested source) (hn : ∀ e ∈ n.children, e.Nested source)
    (hc : c ∈ n.children) : ∀ s ∈ ofNode source n, s.Spares c := by
  have hside (ho : n.isOther = false) : ∀ e ∈ n.children, Beside source c e := fun e he =>
    ⟨aside_of_parted h.parted he hc, h.isFunc ho e he, hn e he⟩
  cases n <;> simp only [Node.children, List.forall_mem_append, List.forall_mem_cons] at hside
  case func span params body =>
    rw [ofNode, List.forall_mem_append]
    exact ⟨spares_visits params, spares_openedBlock (hside rfl).2.1 h.isProper⟩
  case arrow span params body =>
    have hbody := (hside rfl).2.1
    unfold ofNode
    rw [List.forall_mem_append]
    refine ⟨spares_visits params, ?_⟩
    split
    · exact spares_openedBlock hbody rfl
    · simp only [List.forall_mem_cons, List.not_mem_nil, false_implies, implies_true, and_true]
      exact ⟨spares_start hbody.aside hbody.isFunc hbody.start_le_stop _, trivial,
        spares_stop hbody.aside hbody.isFunc hbody.start_le_stop _⟩
  case declarator span target init =>
    rw [ofNode, List.forall_mem_cons, List.forall_mem_flatMap]
    exact ⟨trivial, fun e he => spares_wrapped ((hside rfl).2 e he)⟩
  case defaulted span target value =>
    rw [ofNode, List.forall_mem_cons]
    exact ⟨trivial, spares_wrapped (hside rfl).2.1⟩
  case block span body => exact spares_statements (hside rfl)
  case staticBlock span body => exact spares_statements (hside rfl)
  case switchCase span test body =>
    rw [ofNode, List.forall_mem_cons]
    exact ⟨spares_caseStart h hc _, spares_statements (hside rfl).2⟩
  case ifElse span test yes no =>
    have hwhole := (h.inside c hc).2
    unfold ofNode
    rw [List.forall_mem_append, List.forall_mem_cons]
    refine ⟨⟨trivial, spares_body _ (hside rfl).2.1⟩, ?_⟩
    cases no with
    | none =>
      rw [List.forall_mem_singleton]
      exact .inr (.inl hwhole)
    | some no => exact spares_body _ ((hside rfl).2.2 no (.head _))
  case conditional span test yes no =>
    rw [ofNode, List.forall_mem_append, List.forall_mem_cons]
    exact ⟨⟨trivial, spares_wrapped (hside rfl).2.1⟩, spares_wrapped (hside rfl).2.2.1⟩
  case logical span op left right =>
    rw [ofNode, List.forall_mem_append]
    exact ⟨spares_operand (hside rfl).1, spares_operand (hside rfl).2.1⟩
  case labeled span s =>
    rw [ofNode]
    split
    · simp [Spares]
    · exact spares_body none (hside rfl).1
  case whileLoop span test s =>
    rw [ofNode, List.forall_mem_cons]
    exact ⟨trivial, spares_body none (hside rfl).2.1⟩
  case doWhile span s test =>
    rw [ofNode, List.forall_mem_cons]
    exact ⟨trivial, spares_body none (hside rfl).2.1⟩
  case forLoop span init test step s =>
    rw [ofNode, List.forall_mem_append]
    exact ⟨spares_visits _, spares_body none (hside rfl).2.1⟩
  case forEach span left right s =>
    rw [ofNode, List.forall_mem_cons]
    exact ⟨trivial, spares_body none (hside rfl).2.2.1⟩
  all_goals exact spares_visits _

/-- A body without a probe of its own is marked at its ends. -/
theorem offset_of_mark_mem_body {m : Mark} (h : mark m ∈ body none e) :
    m.offset = e.span.start ∨ m.offset = e.span.stop := by
  by_cases hb : e.isBlock = true
  · obtain ⟨span, ns, rfl⟩ := eq_block_of_isBlock hb
    simp [body] at h
  · rw [Bool.not_eq_true] at hb
    rw [body_of_isBlock_eq_false none hb] at h
    simp only [List.mem_append, List.mem_singleton, statements, List.flatMap_cons,
      List.flatMap_nil, List.append_nil] at h
    rcases h with (h | h) | h
    · cases h
      exact .inl rfl
    · split at h <;> simp at h
      exact .inl (h ▸ rfl)
    · cases h
      exact .inr rfl

/-- A loop is marked at the ends of its body. -/
theorem offset_of_mark_mem_loop {m : Mark} (hl : n.isLoop = true) (h : mark m ∈ ofNode source n) :
    ∃ e ∈ n.children, m.offset = e.span.start ∨ m.offset = e.span.stop := by
  cases n with
  | whileLoop span test s =>
    exact ⟨s, by simp [children], offset_of_mark_mem_body (by simpa [ofNode] using h)⟩
  | doWhile span s test =>
    exact ⟨s, by simp [children], offset_of_mark_mem_body (by simpa [ofNode] using h)⟩
  | forLoop span init test step s =>
    exact ⟨s, by simp [children], offset_of_mark_mem_body (by simpa [ofNode, visits] using h)⟩
  | forEach span left right s =>
    exact ⟨s, by simp [children], offset_of_mark_mem_body (by simpa [ofNode] using h)⟩
  | _ => cases hl

def visited? : ProbeStep → Option Node
  | mark _ => none
  | visit c => some c

/-- The children that are visited are those that are reached, in their order. -/
theorem visited?_ofNode (source : String) (n : Node) :
    (ofNode source n).filterMap visited? = n.reachedChildren := by
  have hvisited (steps : List ProbeStep) :
      steps.filterMap visited? = (steps.flatMap met).filterMap Sum.getRight? := by
    rw [List.filterMap_flatMap, List.filterMap_eq_flatMap_toList]
    refine List.flatMap_congr fun step _ => ?_
    cases step <;> simp [visited?, met]
  rw [hvisited, SiteStep.met_ofNode, List.filterMap_map, ← SiteStep.child?_ofNode source n]
  refine congrArg (List.filterMap · _) (funext fun step => ?_)
  cases step <;> rfl

end ProbeStep

namespace Node

variable {source : String} {a c n s : Node} {span : Span} {m : Mark}

theorem mark_in_region (h : a.Everywhere (Nested source)) (hm : m ∈ a.marks source) :
    a.region.start ≤ m.offset ∧ m.offset ≤ a.region.stop := by
  have hin := (printed_of_nested h).renders.mark_in m hm
  exact ⟨hin.1, hin.2.1⟩

theorem spares_of_apart (ha : a.Everywhere (Nested source)) (hapart : a.region.Apart c.region)
    (hm : m ∈ a.marks source) : (ProbeStep.mark m).Spares c := by
  have hin := mark_in_region ha hm
  rcases hapart with hapart | hapart
  · exact .inl (hin.2.trans hapart)
  · exact .inr (.inl (hapart.trans hin.1))

/-- What is marked in one of two nodes that do not overlap spares the other. -/
theorem spared_of_aside (ha : a.Everywhere (Nested source)) (haside : a.Aside c)
    (hm : m ∈ a.marks source) : (ProbeStep.mark m).Spares c ∨ m ∈ c.marks source := by
  rcases haside with rfl | hapart
  · exact .inr hm
  · exact .inl (spares_of_apart ha hapart hm)

/-- What is marked for the statements of a sequence is not in front of them. -/
theorem le_of_mem_statementMarks {ns : List Node} {lo : Nat}
    (h : ∀ e ∈ ns, e.Everywhere (Nested source)) (hf : ∀ e ∈ ns, e.isFunc = false)
    (hlo : ∀ e ∈ ns, lo ≤ e.span.start)
    (hm : m ∈ (ProbeStep.statements ns).flatMap (ProbeStep.marks source)) : lo ≤ m.offset := by
  obtain ⟨step, hstep, hm⟩ := List.mem_flatMap.mp hm
  obtain ⟨e, he, hstep⟩ := List.mem_flatMap.mp hstep
  have hbelow : m ∈ e.marks source → lo ≤ m.offset := fun hm => by
    have hstart := (mark_in_region (h e he) hm).1
    rw [region_eq_span (hf e he)] at hstart
    exact (hlo e he).trans hstart
  split at hstep <;> simp only [List.mem_cons, List.not_mem_nil, or_false] at hstep
  · subst hstep
    exact hbelow hm
  · rcases hstep with rfl | rfl
    · obtain rfl := List.mem_singleton.mp hm
      exact hlo e he
    · exact hbelow hm

/-- What is marked in a node but not in one of its children spares that child. -/
theorem spared_of_child (h : a.Everywhere (Nested source)) (hc : c ∈ a.children)
    (hm : m ∈ a.marks source) : (ProbeStep.mark m).Spares c ∨ m ∈ c.marks source := by
  rw [marks_eq] at hm
  obtain ⟨step, hstep, hm⟩ := List.mem_flatMap.mp hm
  cases step with
  | mark mark =>
    obtain rfl := List.mem_singleton.mp hm
    exact .inl (ProbeStep.spares_ofNode h.here (fun e he => (h.child he).here) hc _ hstep)
  | visit e =>
    have he := ProbeStep.mem_children_of_visit hstep
    exact spared_of_aside (h.child he) (aside_of_parted h.here.parted he hc) hm

theorem isOther_of_isLoop (hl : s.isLoop = true) : s.isOther = false ∧ s.isFunc = false := by
  cases s <;> first | exact ⟨rfl, rfl⟩ | cases hl

theorem start_lt_of_isHeaded (hl : s.isLoop = true) (hs : s.isHeaded = true) :
    ∀ c ∈ s.children, s.span.start < c.region.start := by
  rw [← region_eq_span (isOther_of_isLoop hl).2]
  simpa [isHeaded, hl] using hs

/-- A loop goes on behind its start. -/
theorem start_lt_stop_of_isLoop (h : s.Everywhere (Nested source)) (hl : s.isLoop = true)
    (hs : s.isHeaded = true) : s.span.start < s.span.stop := by
  obtain ⟨c, hc⟩ : ∃ c, c ∈ s.children := by
    cases s with
    | whileLoop span test body => exact ⟨test, .head _⟩
    | doWhile span body test => exact ⟨test, .head _⟩
    | forLoop span init test step body => exact ⟨body, by simp [children]⟩
    | forEach span left right body => exact ⟨left, .head _⟩
    | _ => cases hl
  have hstart := start_lt_of_isHeaded hl hs c hc
  have hc' := (h.child hc).here.region_in.start_le_stop
  have hstop := (h.here.inside c hc).2
  rw [region_eq_span (isOther_of_isLoop hl).2] at hstop
  omega

/-- What is marked in a loop is behind its start. -/
theorem start_lt_of_mem_marks (h : s.Everywhere (Nested source)) (hl : s.isLoop = true)
    (hs : s.isHeaded = true) (hm : m ∈ s.marks source) : s.span.start < m.offset := by
  have hheaded := start_lt_of_isHeaded hl hs
  rw [marks_eq] at hm
  obtain ⟨step, hstep, hm⟩ := List.mem_flatMap.mp hm
  cases step with
  | mark mark =>
    obtain rfl := List.mem_singleton.mp hm
    obtain ⟨e, he, hoffset⟩ := ProbeStep.offset_of_mark_mem_loop hl hstep
    have hstart := hheaded e he
    have hstop := (h.child he).here.region_in.start_le_stop
    rw [region_eq_span (h.here.isFunc (isOther_of_isLoop hl).1 e he)] at hstart hstop
    omega
  | visit e =>
    have he := ProbeStep.mem_children_of_visit hstep
    exact (hheaded e he).trans_le (mark_in_region (h.child he) hm).1

/-- What spares a node spares all that is below it. -/
theorem spares_of_mem_nodes (h : a.Everywhere (Nested source)) (hn : n ∈ a.nodes)
    (hm : (ProbeStep.mark m).Spares a) : (ProbeStep.mark m).Spares n := by
  have hbelow := region_of_mem_nodes h hn
  rcases hm with hfront | hbehind | ⟨hblock, hoffset⟩
  · exact .inl (hfront.trans hbelow.1)
  · exact .inr (.inl (hbelow.2.trans hbehind))
  -- What is below a block stands behind its brace.
  · obtain ⟨span, body, rfl⟩ := eq_block_of_isBlock hblock
    rcases mem_nodes_iff.mp hn with rfl | ⟨e, he, hn⟩
    · exact .inr (.inr ⟨rfl, hoffset⟩)
    · have hbrace := (isProper_block.mp h.here.isProper).2 e he
      have hstart := (region_of_mem_nodes (h.child he) hn).1
      rw [region_eq_span (h.here.isFunc rfl e he)] at hstart
      rw [ProbeStep.Spares, hoffset]
      exact .inl (hbrace.trans_le hstart)

/-- What spares a node is not between the start of a label in it and that of the loop under it. -/
theorem label_spared_of_spares (h : a.Everywhere (Nested source))
    (hh : a.Everywhere fun n => n.isHeaded = true) (hn : labeled span s ∈ a.nodes)
    (hl : s.isLoop = true) (hm : (ProbeStep.mark m).Spares a) :
    m.offset ≤ span.start ∨ s.span.start < m.offset := by
  have hlabel := everywhere_of_mem_nodes h hn
  have hs : s ∈ (labeled span s).children := .head _
  have hloop := start_lt_stop_of_isLoop (hlabel.child hs) hl
    ((everywhere_of_mem_nodes hh hn).child hs).here
  have hinside : s.region.stop ≤ span.stop := (hlabel.here.inside s hs).2
  rw [region_eq_span (isOther_of_isLoop hl).2] at hinside
  rcases spares_of_mem_nodes h hn hm with hfront | hbehind | ⟨hblock, -⟩
  · exact .inl hfront
  · exact .inr (hloop.trans_le (hinside.trans hbehind))
  · cases hblock

/-- Nothing is marked behind the start of a label and up to that of the loop under it. -/
theorem label_spared (h : a.Everywhere (Nested source))
    (hh : a.Everywhere fun n => n.isHeaded = true) (hn : labeled span s ∈ a.nodes)
    (hl : s.isLoop = true) (hm : m ∈ a.marks source) :
    m.offset ≤ span.start ∨ s.span.start < m.offset := by
  induction a using induct with
  | step a ih =>
    rcases mem_nodes_iff.mp hn with rfl | ⟨c, hc, hn⟩
    · have hs : s ∈ (labeled span s).children := .head _
      have hmarks : (labeled span s).marks source = s.marks source := by
        rw [marks_eq, ProbeStep.ofNode, if_pos hl]
        exact List.append_nil _
      rw [hmarks] at hm
      exact .inr (start_lt_of_mem_marks (h.child hs) hl (hh.child hs).here hm)
    · obtain hspares | hm := spared_of_child h hc hm
      · exact label_spared_of_spares (h.child hc) (hh.child hc) hn hl hspares
      · exact ih c hc (h.child hc) (hh.child hc) hn hm

theorem visit_mem_ofNode (hc : c ∈ a.reachedChildren) :
    ProbeStep.visit c ∈ ProbeStep.ofNode source a := by
  rw [← ProbeStep.visited?_ofNode source a] at hc
  obtain ⟨step, hstep, hc⟩ := List.mem_filterMap.mp hc
  cases step with
  | mark => cases hc
  | visit e => exact Option.some.inj hc ▸ hstep

/-- The marks of a node that is reached are made in a row. -/
theorem infix_marks (hn : n ∈ a.reached) : n.marks source <:+: a.marks source := by
  induction a using induct with
  | step a ih =>
    rw [reached_eq, List.mem_cons, List.mem_flatMap] at hn
    rcases hn with rfl | ⟨c, hc, hn⟩
    · exact List.infix_refl _
    · have hbelow := ih c (mem_children_of_mem_reachedChildren hc) hn
      rw [marks_eq source a]
      exact hbelow.trans (List.infix_of_mem_flatten (List.mem_map_of_mem (visit_mem_ofNode hc)))

/-- What is marked in a node that is reached is marked. -/
theorem mem_marks_of_mem_reached (hn : n ∈ a.reached) (hm : m ∈ n.marks source) :
    m ∈ a.marks source := (infix_marks hn).subset hm

/-- A label is parted from what it stands before, unless that is a loop or a block. -/
theorem exists_mark_of_labeled (hl : s.isLoop = false) (hb : s.isBlock = false) :
    ∃ m ∈ (labeled span s).marks source, m.offset = s.span.start := by
  rw [marks_eq, ProbeStep.ofNode, hl, if_neg Bool.false_ne_true,
    ProbeStep.body_of_isBlock_eq_false none hb]
  exact ⟨⟨s.span.start, [.text "\x7b "]⟩, List.mem_flatMap.mpr
    ⟨_, List.mem_append_left _ (List.mem_append_left _ (.head _)), .head _⟩, rfl⟩

/-- What stands behind a label and any labels that follow it. -/
def underLabels : Node → Node
  | labeled _ s => s.underLabels
  | n => n

end Node

theorem Mark.exists_insertion {counts : ProbeCounts} {marks : List Mark} {m : Mark}
    (h : m ∈ marks) : ∃ i ∈ insertions counts marks, i.offset = m.offset := by
  induction marks generalizing counts with
  | nil => cases h
  | cons first later ih =>
    rcases List.mem_cons.mp h with rfl | h
    · exact ⟨_, .head _, rfl⟩
    · obtain ⟨i, hi, ho⟩ := ih h
      exact ⟨i, .tail _ hi, ho⟩

namespace Program

variable {p : Program} {n : Node}

theorem mem_nodes_of_mem_reached (hn : n ∈ p.reached) : n ∈ p.nodes := by
  obtain ⟨a, ha, hn⟩ := List.mem_flatMap.mp hn
  exact List.mem_flatMap.mpr
    ⟨a, ha, a.nodes_perm.mem_iff.mpr (List.mem_append_left _ hn)⟩

theorem everywhere_of_mem_nodes {P : Node → Prop} (h : ∀ a ∈ p.items, a.Everywhere P)
    (hn : n ∈ p.nodes) : n.Everywhere P := by
  obtain ⟨a, ha, hn⟩ := List.mem_flatMap.mp hn
  exact Node.everywhere_of_mem_nodes (h a ha) hn

/-- What holds of all nodes of a program holds of those that are reached. -/
theorem everywhere_of_mem_reached {P : Node → Prop} (h : ∀ a ∈ p.items, a.Everywhere P)
    (hn : n ∈ p.reached) : n.Everywhere P :=
  everywhere_of_mem_nodes h (mem_nodes_of_mem_reached hn)

theorem infix_marks (hn : n ∈ p.reached) : n.marks p.source <:+: p.marks := by
  obtain ⟨a, ha, hn⟩ := List.mem_flatMap.mp hn
  exact (Node.infix_marks hn).trans (List.infix_of_mem_flatten (List.mem_map_of_mem ha))

/-- Nothing is inserted behind the start of a label and up to that of the loop right under it, so
that the label stays on the loop. Before anything else that is no block a brace is inserted, also
before another label. -/
theorem labels_spared {p : Program} (h : p.Nested)
    (hh : ∀ n ∈ p.items, n.Everywhere fun n => n.isHeaded = true) {span : Span} {s : Node} :
    (.labeled span s ∈ p.nodes → s.isLoop = true →
      ∀ i ∈ p.insertions, i.offset ≤ span.start ∨ s.span.start < i.offset) ∧
    (.labeled span s ∈ p.reached → s.isLoop = false → s.isBlock = false →
      ∃ i ∈ p.insertions, i.offset = s.span.start) := by
  constructor
  · intro hn hl i hi
    obtain ⟨m, hm, ho⟩ := Mark.exists_of_mem_insertions hi
    rw [← ho]
    obtain ⟨e, he, hm⟩ := List.mem_flatMap.mp hm
    obtain ⟨a, ha, hn⟩ := List.mem_flatMap.mp hn
    have haside := Node.aside_of_parted h.parted he ha
    obtain hspares | hm := Node.spared_of_aside (h.items e he) haside hm
    · exact Node.label_spared_of_spares (h.items a ha) (hh a ha) hn hl hspares
    · exact Node.label_spared (h.items a ha) (hh a ha) hn hl hm
  · intro hn hl hb
    obtain ⟨a, ha, hn⟩ := List.mem_flatMap.mp hn
    obtain ⟨m, hm, ho⟩ : ∃ m ∈ (Node.labeled span s).marks p.source, m.offset = s.span.start :=
      Node.exists_mark_of_labeled hl hb
    have hmark : m ∈ p.marks := List.mem_flatMap.mpr ⟨a, ha, Node.mem_marks_of_mem_reached hn hm⟩
    obtain ⟨i, hi, hoffset⟩ : ∃ i ∈ p.insertions, i.offset = m.offset :=
      Mark.exists_insertion hmark
    exact ⟨i, hi, hoffset.trans ho⟩

/-- A labelled loop as the arm of a choice. -/
def armed : Program :=
  ⟨"if (x) a: for (;;) continue a", false, [.ifElse ⟨0, 29⟩ (.name ⟨4, 5⟩ "x")
    (.labeled ⟨7, 29⟩ (.forLoop ⟨10, 29⟩ none none none (.other ⟨19, 29⟩ .continueStatement [])))
    none]⟩

theorem parse_armed : Program.parse armed.source = .ok armed := by
  unfold Program.parse
  cbv

theorem nested_armed : armed.Nested where
  items n hn := Node.everywhere_of_nests (List.all_eq_true.mp (by cbv) n hn)
  parted := List.pairwise_singleton _ _

theorem labels_spared_of_armed : parse armed.source = .ok armed ∧
    armed.insertions.map (·.offset) = [7, 7, 19, 19, 29, 29, 29] ∧
    ∀ i ∈ armed.insertions, i.offset ≤ 7 ∨ 10 < i.offset := by
  have hheaded : ∀ n ∈ armed.items, n.Everywhere fun n => n.isHeaded = true := fun n hn =>
    Node.everywhere_of_passes (List.all_eq_true.mp (by cbv) n hn)
  have hlabel : .labeled ⟨7, 29⟩ (.forLoop ⟨10, 29⟩ none none none
      (.other ⟨19, 29⟩ .continueStatement [])) ∈ armed.nodes := by
    simp [armed, nodes, Node.nodes_eq, Node.children]
  exact ⟨parse_armed, by cbv, (labels_spared nested_armed hheaded).1 hlabel rfl⟩

/-- A loop with two labels, of which it goes on with the first. -/
def relabelled : Program :=
  ⟨"a: b: for (;;) continue a", false, [.labeled ⟨0, 25⟩ (.labeled ⟨3, 25⟩
    (.forLoop ⟨6, 25⟩ none none none (.other ⟨15, 25⟩ .continueStatement [])))]⟩

theorem parse_relabelled : Program.parse relabelled.source = .ok relabelled := by
  unfold Program.parse
  cbv

/-- A brace comes between the two labels, so the first is no longer one of the loop. -/
theorem not_labels_spared_of_relabelled : ¬ ∀ p : Program, Program.parse p.source = .ok p →
    ∀ span s, .labeled span s ∈ p.nodes → s.underLabels.isLoop = true →
      ∀ i ∈ p.insertions, i.offset ≤ span.start ∨ s.underLabels.span.start < i.offset := by
  intro h
  have hinsertions : relabelled.insertions.map (·.offset) = [3, 3, 15, 15, 25, 25] := by cbv
  obtain ⟨i, hi, hoffset⟩ : ∃ i ∈ relabelled.insertions, i.offset = 3 :=
    List.mem_map.mp (hinsertions ▸ .head _)
  have hlabel : .labeled ⟨0, 25⟩ (.labeled ⟨3, 25⟩ (.forLoop ⟨6, 25⟩ none none none
      (.other ⟨15, 25⟩ .continueStatement []))) ∈ relabelled.nodes := by
    simp [relabelled, nodes, Node.nodes_eq, Node.children]
  have hspared : i.offset ≤ 0 ∨ 6 < i.offset := h relabelled parse_relabelled _ _ hlabel rfl i hi
  omega

end Program

end Adequacy
