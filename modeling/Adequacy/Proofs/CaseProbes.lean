import Adequacy.Proofs.PrintedNodes
import Adequacy.Proofs.LabeledLoops
import Adequacy.Proofs.ProgramLayout
import Adequacy.Proofs.TokenTiling

namespace Adequacy

/-- The colon of a clause stands behind its test or its word, in the clause, and in front of its
statements. -/
structure ClauseColon (text : List Char) (span : Span) (test : Option Node) (body : List Node)
    (front gap rest : List Char) : Prop where
  text_eq : text = front ++ (gap ++ ':' :: rest)
  isGap : Gap gap (':' :: rest)
  behind_test : ∀ e ∈ test, byteSize front = e.span.stop
  behind_word : test = none → ReadsAt text span.start "default".toList →
    byteSize front = span.start + "default".utf8ByteSize
  le_stop : byteSize front + byteSize gap + 1 ≤ span.stop
  le_start : ∀ s ∈ body, byteSize front + byteSize gap + 1 ≤ s.span.start

theorem exists_clauseColon {text : List Char} {span : Span} {test : Option Node} {body : List Node}
    (h : (Node.switchCase span test body).Shaped text) :
    ∃ front gap rest, ClauseColon text span test body front gap rest := by
  obtain ⟨_, _, htest, hword, ⟨front, gap, rest, htext, rfl, hgap, rfl⟩, hstop, hbody⟩ := h
  exact ⟨front, gap, rest, htext, hgap, htest, hword, hstop, hbody⟩

theorem Token.find?_skips {source : String} {front gap rest : List Char}
    (htext : source.toList = front ++ (gap ++ ':' :: rest)) (h : Skips gap (':' :: rest)) :
    find? source (byteSize front) ":" =
      some ⟨byteSize front + byteSize gap, byteSize front + byteSize gap + 1⟩ := by
  have hcolon : munch ':' rest = (some .colon, ([] : List Char).length) := rfl
  refine find?_eq_some_iff.mpr ⟨front, _, htext, rfl, ?_⟩
  rw [seek_skips h, seek_of_munch_some hcolon rfl (by decide)]
  rfl

namespace ClauseColon

variable {source : String} {span : Span} {test : Option Node} {body : List Node}
  {front gap rest : List Char}

/-- The probe of a clause is put right behind its colon, if the lookup steps over what is in front
of that. -/
theorem caseStart_eq (h : ClauseColon source.toList span test body front gap rest)
    (hskips : Token.Skips gap (':' :: rest))
    (hword : test = none → ReadsAt source.toList span.start "default".toList) :
    ProbeStep.caseStart source span test = byteSize front + byteSize gap + 1 := by
  have hhead : test.elim (span.start + "default".utf8ByteSize) (·.span.stop) = byteSize front := by
    cases test with
    | none => exact (h.behind_word rfl (hword rfl)).symm
    | some e => exact (h.behind_test e rfl).symm
  rw [Node.caseStart_eq, Node.colon?, hhead, Token.find?_skips h.text_eq hskips]
  rfl

end ClauseColon

namespace Node

variable {source : String} {span : Span} {test : Option Node} {body : List Node}

/-- What a clause marks: its probe, and then what is marked for its statements. -/
theorem marks_switchCase : (switchCase span test body).marks source =
    ⟨ProbeStep.caseStart source span test, [.text " ", .probe .branch span, .text ";"]⟩ ::
      (ProbeStep.statements body).flatMap (ProbeStep.marks source) := by
  rw [marks_eq]
  rfl

/-- The probe that a clause gets with the counts up to it. -/
def clauseProbe (counts : ProbeCounts) : String :=
  " " ++ Category.branch.probe (counts.get .branch) ++ ";"

/-- What is inserted for the statements of a clause. -/
def clauseInsertions (source : String) (counts : ProbeCounts) (body : List Node) : List Insertion :=
  Mark.insertions counts ((ProbeStep.statements body).flatMap (ProbeStep.marks source))

theorem render_clauseProbe (counts : ProbeCounts) :
    Piece.render counts [.text " ", .probe .branch span, .text ";"] =
      (clauseProbe counts, counts.bump .branch) := by
  simp [Piece.render, clauseProbe, String.append_assoc]

theorem insertions_switchCase (counts : ProbeCounts) :
    Mark.insertions counts ((switchCase span test body).marks source) =
      ⟨ProbeStep.caseStart source span test, clauseProbe counts⟩ ::
        clauseInsertions source (counts.bump .branch) body := by
  rw [marks_switchCase, Mark.insertions, render_clauseProbe]
  rfl

theorem le_of_mem_clauseInsertions {colon : Nat} {counts : ProbeCounts}
    (h : (switchCase span test body).Everywhere (Nested source))
    (hbody : ∀ s ∈ body, colon ≤ s.span.start) {i : Insertion}
    (hi : i ∈ clauseInsertions source counts body) : colon ≤ i.offset := by
  have hchild {s : Node} (hs : s ∈ body) : s ∈ (switchCase span test body).children :=
    List.mem_append_right _ hs
  obtain ⟨m, hm, ho⟩ := Mark.exists_of_mem_insertions hi
  rw [← ho]
  exact le_of_mem_statementMarks (fun s hs => h.child (hchild hs))
    (fun s hs => h.here.isFunc rfl s (hchild hs)) hbody hm

/-- A clause whose probe is put behind its colon is printed with it there. What else is inserted for
its statements comes later. -/
theorem print_switchCase {front gap rest : List Char}
    (h : (switchCase span test body).Everywhere (Nested source))
    (hcolon : ClauseColon source.toList span test body front gap rest)
    (hstart : ProbeStep.caseStart source span test = byteSize front + byteSize gap + 1)
    (counts : ProbeCounts) :
    ((switchCase span test body).print source counts).1 =
      Span.chars source.toList ⟨span.start, byteSize front + byteSize gap + 1⟩ ++
        ((clauseProbe counts).toList ++
          Insertion.woven (clauseInsertions source (counts.bump .branch) body)
            (byteSize front + byteSize gap + 1)
            (Span.chars source.toList ⟨byteSize front + byteSize gap + 1, span.stop⟩)) := by
  have hr := (printed_of_nested h).renders
  have hregion : (switchCase span test body).region = span := rfl
  have hmark : ⟨byteSize front + byteSize gap + 1, [.text " ", .probe .branch span, .text ";"]⟩ ∈
      (switchCase span test body).marks source := by
    rw [marks_switchCase, hstart]
    exact .head _
  rw [hregion] at hr
  obtain ⟨hlo, hhi, hb⟩ := hr.mark_in _ hmark
  have hfront : Span.In source.toList ⟨span.start, byteSize front + byteSize gap + 1⟩ :=
    ⟨hr.span_in.start_isBoundary, hb, hlo⟩
  have hback : Span.In source.toList ⟨byteSize front + byteSize gap + 1, span.stop⟩ :=
    ⟨hb, hr.span_in.stop_isBoundary, hhi⟩
  have hsize : span.start + byteSize (Span.chars source.toList
      ⟨span.start, byteSize front + byteSize gap + 1⟩) = byteSize front + byteSize gap + 1 :=
    hfront.start_add_byteSize
  have hlater : ∀ i ∈ clauseInsertions source (counts.bump .branch) body,
      byteSize front + byteSize gap + 1 ≤ i.offset :=
    fun i hi => le_of_mem_clauseInsertions h hcolon.le_start hi
  rw [hr.print_eq, insertions_switchCase, hstart, hfront.chars_append hback]
  dsimp only
  rw [Insertion.woven_front (by rw [hsize]; exact List.forall_mem_cons.mpr ⟨Nat.le_refl _, hlater⟩),
    hsize, Insertion.woven_cons_here rfl hlater]

end Node

/-- The probes in front of others have the numbers up to theirs. -/
theorem Mark.length_items (c : Category) (marks : List Mark) :
    (items c marks).length = (counted {} marks).get c := by
  have hzero : ProbeCounts.get {} c = 0 := by cases c <;> rfl
  rw [get_counted, hzero, Nat.zero_add, items_eq, List.length_map]

/-- The number of a probe is that of all probes of its category in front of it. -/
theorem Mark.items_counted {before after : List Mark} {m : Mark} {c : Category} {item : Span}
    (hm : m.pieces.filterMap (Piece.item? c) = [item]) :
    (items c (before ++ m :: after))[(counted {} before).get c]? = some item := by
  have hitems : items c (before ++ m :: after) = items c before ++ item :: items c after := by
    rw [items, List.flatMap_append, List.flatMap_cons, hm]
    rfl
  rw [hitems, ← length_items, List.getElem?_append_right (Nat.le_refl _), Nat.sub_self]
  rfl

namespace Program

variable {p : Program} {span : Span} {test : Option Node} {body : List Node}

/-- The probe with this id reports this range. -/
def Reports (p : Program) (c : Category) (id : Nat) (span : Span) : Prop :=
  (p.target c)[id]? = some (id, (LineIndex.ofText p.source).clamped span)

theorem reports_of_items {c : Category} {id : Nat} (h : (Mark.items c p.marks)[id]? = some span) :
    p.Reports c id span := by
  simp [Reports, target, CoverTarget.ofRanges, h]

/-- The probe of a clause is inserted at an offset, and next all that is for its statements. -/
def InsertsFirst (p : Program) (span : Span) (body : List Node) (offset : Nat) : Prop :=
  ∃ before after counts, p.Reports .branch (counts.get .branch) span ∧
    p.insertions = before ++ ⟨offset, Node.clauseProbe counts⟩ ::
      (Node.clauseInsertions p.source (counts.bump .branch) body ++ after)

/-- The clause is in the program with probes. Up to an offset its text is as it was, and there the
probe comes before what is inserted for its statements. -/
def PrintsFirst (p : Program) (span : Span) (body : List Node) (offset : Nat) : Prop :=
  ∃ r counts before after, p.instrument? = some r ∧ p.Reports .branch (counts.get .branch) span ∧
    (∀ i ∈ Node.clauseInsertions p.source (counts.bump .branch) body, offset ≤ i.offset) ∧
    r.program.toList = before ++ (Span.chars p.source.toList ⟨span.start, offset⟩ ++
      ((Node.clauseProbe counts).toList ++
        Insertion.woven (Node.clauseInsertions p.source (counts.bump .branch) body) offset
          (Span.chars p.source.toList ⟨offset, span.stop⟩))) ++ after

theorem insertsFirst (hc : .switchCase span test body ∈ p.reached) :
    p.InsertsFirst span body (ProbeStep.caseStart p.source span test) := by
  obtain ⟨before, after, hmarks⟩ := infix_marks hc
  let front := before ++ (Node.switchCase span test body).marks p.source
  refine ⟨Mark.insertions {} before, Mark.insertions (Mark.counted {} front) after,
    Mark.counted {} before, ?_, ?_⟩
  · refine reports_of_items ?_
    rw [← hmarks, Node.marks_switchCase, List.append_assoc, List.cons_append]
    exact Mark.items_counted rfl
  · rw [insertions, ← hmarks, Mark.insertions_append, Mark.insertions_append,
      Node.insertions_switchCase, List.append_assoc, List.cons_append]

theorem printsFirst {front gap rest : List Char} (h : p.Nested)
    (hc : .switchCase span test body ∈ p.reached)
    (hcolon : ClauseColon p.source.toList span test body front gap rest)
    (hstart : ProbeStep.caseStart p.source span test = byteSize front + byteSize gap + 1) :
    p.PrintsFirst span body (byteSize front + byteSize gap + 1) := by
  obtain ⟨counts, sites, sites', hsites, hcounts, before, after, hprint⟩ :=
    printedIn_of_mem_reached h hc rfl
  have hclause := everywhere_of_mem_reached h.items hc
  obtain ⟨r, hr, hprogram⟩ := exists_instrument h
  refine ⟨r, counts, before, after, hr, ?_, fun i hi => ?_, ?_⟩
  · have hfirst : (p.sitesOf .branch)[counts.get .branch]? = some
        ⟨.branch, .switchCase span test body, ProbeStep.caseStart p.source span test⟩ := by
      rw [sitesOf, hsites, hcounts, List.filter_append, Node.sites_eq, SiteStep.ofNode,
        List.flatMap_cons, List.append_assoc]
      simp [SiteStep.sites, ProbeCounts.get]
    simp [Reports, target_eq, hfirst, Node.span]
  · exact Node.le_of_mem_clauseInsertions hclause hcolon.le_start hi
  · rw [hprogram, ← hprint, Node.print_switchCase hclause hcolon hstart]

/-- The probe of a clause is inserted next before all that is for its statements. Every clause has a
colon, and if the lookup steps over what is in front of that, the probe is right behind the colon,
also in the program with probes. -/
theorem cases_probed_first (hp : parse p.source = .ok p) (hs : bareText p.source = p.source.toList)
    (hc : .switchCase span test body ∈ p.reached) :
    p.InsertsFirst span body (ProbeStep.caseStart p.source span test) ∧
    (∃ front gap rest, ClauseColon p.source.toList span test body front gap rest) ∧
    ∀ front gap rest, ClauseColon p.source.toList span test body front gap rest →
      Token.Skips gap (':' :: rest) →
      (test = none → ReadsAt p.source.toList span.start "default".toList) →
        p.InsertsFirst span body (byteSize front + byteSize gap + 1) ∧
        (p.Nested → p.PrintsFirst span body (byteSize front + byteSize gap + 1)) := by
  have hlaid := everywhere_of_mem_reached (laid_items hp hs) hc
  have hinserts := insertsFirst hc
  refine ⟨hinserts, exists_clauseColon hlaid.here.shaped,
    fun front gap rest hcolon hskips hword => ?_⟩
  have hstart := hcolon.caseStart_eq hskips hword
  exact ⟨hstart ▸ hinserts, fun h => printsFirst h hc hcolon hstart⟩

/-- A clause with a colon in a comment in front of its own, and a last one without statements. -/
def commented : Program :=
  ⟨"switch (a) \x7b case 1 /* : */ : b; default: \x7d", false, [.switch ⟨0, 43⟩ (.name ⟨8, 9⟩ "a")
    [.switchCase ⟨13, 32⟩ (some (.literal ⟨18, 19⟩ .number))
      [.other ⟨30, 32⟩ .expressionStatement [.name ⟨30, 31⟩ "b"]],
    .switchCase ⟨33, 41⟩ none []]]⟩

set_option maxRecDepth 4000 in
theorem parse_commented : Program.parse commented.source = .ok commented := by
  unfold Program.parse
  cbv

theorem nested_commented : commented.Nested where
  items n hn := Node.everywhere_of_nests (List.all_eq_true.mp (by cbv) n hn)
  parted := List.pairwise_singleton _ _

theorem bareText_commented : bareText commented.source = commented.source.toList := by cbv

/-- The colon in the comment is none of the clause. -/
theorem clauseColon_commented :
    ClauseColon commented.source.toList ⟨13, 32⟩ (some (.literal ⟨18, 19⟩ .number))
      [.other ⟨30, 32⟩ .expressionStatement [.name ⟨30, 31⟩ "b"]] "switch (a) \x7b case 1".toList
      [' ', '/', '*', ' ', ':', ' ', '*', '/', ' '] " b; default: \x7d".toList where
  text_eq := by cbv
  isGap := .blank rfl (@Gap.block [' ', ':', ' ', '*', '/'] [' '] _ rfl (.blank rfl (.nil rfl)))
  behind_test e he := by
    obtain rfl := Option.some.inj he
    cbv
  behind_word h := absurd h (Option.some_ne_none _)
  le_stop := by cbv
  le_start s hs := by
    obtain rfl := List.mem_singleton.mp hs
    cbv

theorem clauseColon_of_last :
    ClauseColon commented.source.toList ⟨33, 41⟩ none []
      "switch (a) \x7b case 1 /* : */ : b; default".toList [] " \x7d".toList where
  text_eq := by cbv
  isGap := .nil rfl
  behind_test e he := absurd he (Option.not_mem_none e)
  behind_word _ _ := by cbv
  le_stop := by cbv
  le_start s hs := absurd hs List.not_mem_nil

theorem cases_probed_first_of_commented : parse commented.source = .ok commented ∧
    commented.InsertsFirst ⟨13, 32⟩
      [.other ⟨30, 32⟩ .expressionStatement [.name ⟨30, 31⟩ "b"]] 29 ∧
    commented.PrintsFirst ⟨13, 32⟩
      [.other ⟨30, 32⟩ .expressionStatement [.name ⟨30, 31⟩ "b"]] 29 ∧
    commented.InsertsFirst ⟨33, 41⟩ [] 41 ∧ commented.PrintsFirst ⟨33, 41⟩ [] 41 := by
  have hcase : .switchCase ⟨13, 32⟩ (some (.literal ⟨18, 19⟩ .number))
      [.other ⟨30, 32⟩ .expressionStatement [.name ⟨30, 31⟩ "b"]] ∈ commented.reached := by
    simp [commented, reached, Node.reached_eq, Node.reachedChildren, Node.children]
  have hlast : .switchCase ⟨33, 41⟩ none [] ∈ commented.reached := by
    simp [commented, reached, Node.reached_eq, Node.reachedChildren, Node.children]
  have hskips : Token.Skips [' ', '/', '*', ' ', ':', ' ', '*', '/', ' ']
      (':' :: " b; default: \x7d".toList) :=
    .blank rfl (@Token.Skips.block [' ', ':', ' '] [' '] _ (by decide) (.blank rfl .nil))
  have hword : ReadsAt commented.source.toList 33 "default".toList :=
    ⟨"switch (a) \x7b case 1 /* : */ : b; ".toList, ": \x7d".toList, by cbv, by cbv⟩
  obtain ⟨hinserts, hprints⟩ := (cases_probed_first parse_commented bareText_commented hcase).2.2
    _ _ _ clauseColon_commented hskips fun h => absurd h (Option.some_ne_none _)
  obtain ⟨hinserts', hprints'⟩ := (cases_probed_first parse_commented bareText_commented hlast).2.2
    _ _ _ clauseColon_of_last .nil fun _ => hword
  exact ⟨parse_commented, hinserts, hprints nested_commented, hinserts', hprints' nested_commented⟩

/-- A clause with a space in front of its colon that breaks no line. -/
def spaced : Program :=
  ⟨"switch (a) \x7b case 1\u00a0: b \x7d", false, [.switch ⟨0, 26⟩ (.name ⟨8, 9⟩ "a")
    [.switchCase ⟨13, 24⟩ (some (.literal ⟨18, 19⟩ .number))
      [.other ⟨23, 24⟩ .expressionStatement [.name ⟨23, 24⟩ "b"]]]]⟩

set_option maxRecDepth 4000 in
theorem parse_spaced : Program.parse spaced.source = .ok spaced := by
  unfold Program.parse
  cbv

/-- The lookup takes that space for a token, so the probe comes to the end of the clause. -/
theorem not_cases_probed_first_of_spaced : ¬ ∀ p : Program, Program.parse p.source = .ok p →
    ∀ span test body, .switchCase span test body ∈ p.reached → ∃ front gap rest,
      ClauseColon p.source.toList span test body front gap rest ∧
        p.InsertsFirst span body (byteSize front + byteSize gap + 1) := by
  intro h
  have hclause : .switchCase ⟨13, 24⟩ (some (.literal ⟨18, 19⟩ .number))
      [.other ⟨23, 24⟩ .expressionStatement [.name ⟨23, 24⟩ "b"]] ∈ spaced.reached := by
    simp [spaced, reached, Node.reached_eq, Node.reachedChildren, Node.children]
  obtain ⟨front, gap, rest, hcolon, before, after, counts, -, hinsertions⟩ :=
    h spaced parse_spaced _ _ _ hclause
  have hplaces : ∀ i ∈ spaced.insertions,
      (takeBytes i.offset spaced.source.toList).getLast? ≠ some ':' := by
    have hinsertions : spaced.insertions = [⟨24, " __cov__.branch.add(0);"⟩,
      ⟨23, "__cov__.stmt.add(0); "⟩] := by cbv
    rw [hinsertions]
    decide
  refine hplaces _ (hinsertions ▸ List.mem_append_right _ (.head _)) ?_
  have htext : spaced.source.toList = (front ++ gap ++ [':']) ++ rest := by
    rw [hcolon.text_eq]
    simp
  have hsize : byteSize front + byteSize gap + 1 = byteSize (front ++ gap ++ [':']) := by
    simp only [byteSize_append]
    rfl
  rw [hsize, htext, takeBytes_byteSize_append]
  exact List.getLast?_concat

end Program

end Adequacy
