import Adequacy.Proofs.Isolation
import Adequacy.Proofs.Placement
import Adequacy.Proofs.ProgramLayout

namespace Adequacy

namespace Program

variable {source assertion : String} {p : Program} {v : Standing × Node}

theorem source_of_parse (h : parse source = .ok p) : p.source = source := by
  unfold parse at h
  dsimp only at h
  split at h
  next => cases h
  next =>
    split at h
    next => cases h
    next =>
      cases h
      rfl

end Program

/-- What holds of all nodes holds of those that are visited. -/
theorem Node.Everywhere.visited {P : Node → Prop} {assertion : String} {s : Standing} {n : Node}
    {v : Standing × Node} (h : n.Everywhere P) (hv : v ∈ n.visits assertion s) :
    v.2.Everywhere P := by
  induction n using Node.induct generalizing s with
  | step n ih =>
    unfold Node.visits at hv
    split at hv
    next => cases hv
    next =>
      rcases List.mem_cons.mp hv with rfl | hv
      · exact h
      · obtain ⟨c, -, hv⟩ := List.mem_flatMap.mp hv
        have hc := Node.mem_children_of_mem_placed c.2
        exact ih c.1.2 hc (h.child hc) hv

namespace Program

theorem laid_visits {source assertion : String} {p : Program} {v : Standing × Node}
    (hp : parse source = .ok p) (hs : bareText source = source.toList) (hv : v ∈ p.visits assertion) :
    v.2.Everywhere (Node.Laid source.toList) := by
  obtain ⟨n, hn, hv⟩ := List.mem_flatMap.mp hv
  exact (laid_items hp hs n hn).visited hv

end Program

namespace Mutation

variable {source assertion : String} {p : Program} {m : Mutation}

theorem mem_ofProgram_iff (hp : Program.parse source = .ok p) :
    m ∈ ofProgram assertion p ↔ ∃ v ∈ p.visits assertion, m ∈ ofNode source v.1 v.2 := by
  rw [ofProgram, Program.source_of_parse hp, List.mem_flatMap]

/-- Every mutation of a program is placed at the node that it comes of. -/
theorem fitsAt_ofProgram {v : Standing × Node} (hp : Program.parse source = .ok p)
    (hs : Program.bareText source = source.toList) (hv : v ∈ p.visits assertion)
    (hm : m ∈ ofNode source v.1 v.2) :
    FitsAt source (v.2.plainLookups source = true) v.2.span m :=
  fitsAt_ofNode (Program.laid_visits hp hs hv) hm

theorem inside_of_fitsAt {plain : Prop} {node : Span} (h : FitsAt source plain node m)
    (hp : plain) : m.Inside := by
  unfold Inside
  rw [h.node_eq]
  exact (h.fits hp).inside

end Mutation

namespace Generation

variable {options : MutationOptions} {source : String} {p : Program} {g : Generation} {x : Mutant}

theorem mutants_of_ofSource (hp : Program.parse source = .ok p) (hg : ofSource options source = .ok g) :
    g.mutants = Mutation.mutants source 0 (Mutation.ofProgram options.assertion p) := by
  rw [ofSource_of_parse hp] at hg
  dsimp only at hg
  split at hg
  next => cases hg
  next =>
    cases hg
    rfl

/-- Whatever a mutation of a visited node changes the source to is among the mutants. -/
theorem exists_mutant (options : MutationOptions) {text : String} {m : Mutation}
    {v : Standing × Node} {q : Patch} (hp : Program.parse source = .ok p)
    (hs : options.strict = false)
    (hv : v ∈ p.visits options.assertion) (hm : m ∈ Mutation.ofNode source v.1 v.2)
    (happly : m.patch.apply source = .ok (text, q)) (hne : text ≠ source) :
    ∃ g id, ofSource options source = .ok g ∧ Mutation.mutant source id m text ∈ g.mutants := by
  have hmem := (Mutation.mem_ofProgram_iff hp).mpr ⟨v, hv, hm⟩
  obtain ⟨id, hid⟩ := Mutation.exists_mem_mutants 0 hmem
    (Mutation.changed?_eq_some_iff.mpr ⟨hne, q, happly⟩)
  rw [ofSource_of_parse hp, hs]
  exact ⟨_, id, rfl, hid⟩

/-- Every mutant reports the place of a visited node. It is confined if the mutations of the node
lie in that, as they do where the comments are plain. -/
theorem exists_visit (hp : Program.parse source = .ok p)
    (hs : Program.bareText source = source.toList) (hg : ofSource options source = .ok g)
    (hx : x ∈ g.mutants) :
    ∃ v ∈ p.visits options.assertion, v.2.isMutable = true ∧
      x.location = (LineIndex.ofText source).clamped v.2.span ∧
      (v.2.plainLookups source = true ∨ (∀ m ∈ Mutation.ofNode source v.1 v.2, m.Inside) →
        x.Confined) := by
  rw [mutants_of_ofSource hp hg] at hx
  obtain ⟨m, hm, text, hchanged, hx⟩ := Mutation.exists_of_mem_mutants hx
  obtain ⟨v, hmem, hm⟩ := (Mutation.mem_ofProgram_iff hp).mp hm
  obtain ⟨-, q, happly⟩ := Mutation.changed?_eq_some_iff.mp hchanged
  have hfits := Mutation.fitsAt_ofProgram hp hs hmem hm
  have hin := (Program.laid_visits hp hs hmem).here.span_in
  rw [hx]
  refine ⟨v, hmem, Node.isMutable_of_mem_ofNode hm, ?_, fun hv => ?_⟩
  · rw [← hfits.node_eq]
    rfl
  · have hinside : m.Inside := by
      rcases hv with hplain | hall
      · exact Mutation.inside_of_fitsAt hfits hplain
      · exact hall m hm
    refine Mutation.confined_mutant happly hinside ?_
    rw [hfits.node_eq]
    exact hin.text?_isSome

/-- Every mutant is confined to a node that was visited, whose place it reports, as long as the
edits of the node lie in it. They do so if the comments are plain where its tokens are looked up. -/
theorem confined_ofSource (hp : Program.parse source = .ok p)
    (hs : Program.bareText source = source.toList) (hg : ofSource options source = .ok g)
    (hx : x ∈ g.mutants)
    (hv : ∀ v ∈ p.visits options.assertion,
      (LineIndex.ofText source).clamped v.2.span = x.location →
        v.2.plainLookups source = true ∨ ∀ m ∈ Mutation.ofNode source v.1 v.2, m.Inside) :
    (∃ v ∈ p.visits options.assertion, x.location = (LineIndex.ofText source).clamped v.2.span) ∧
      x.Confined := by
  obtain ⟨v, hmem, -, hloc, hconfined⟩ := exists_visit hp hs hg hx
  exact ⟨⟨v, hmem, hloc⟩, hconfined (hv v hmem hloc.symm)⟩

/-- A chain with a comment between its links. -/
def chained : Program :=
  ⟨"a?.b // c\n?.d", false, [.other ⟨0, 13⟩ .expressionStatement
    [.chainMember ⟨0, 13⟩ true (.chainMember ⟨0, 4⟩ true (.name ⟨0, 1⟩ "a") none) none]]⟩

theorem parse_chained : Program.parse chained.source = .ok chained := by
  unfold Program.parse
  cbv

theorem plainLookups_chained :
    ∀ v ∈ chained.visits "__assert__", v.2.plainLookups chained.source = true :=
  List.all_eq_true.mp (by cbv)

theorem confined_of_chained : ∃ g x, ofSource {} chained.source = .ok g ∧ x ∈ g.mutants ∧
    x.program = "a.b // c\n.d" ∧ x.Confined := by
  let outer : Node := .chainMember ⟨0, 13⟩ true
    (.chainMember ⟨0, 4⟩ true (.name ⟨0, 1⟩ "a") none) none
  have hv : (({}, outer) : Standing × Node) ∈ chained.visits "__assert__" := by
    have hall : chained.visits "__assert__" = [({}, chained.items.head!), ({}, outer),
        ({ onChain := true }, .chainMember ⟨0, 4⟩ true (.name ⟨0, 1⟩ "a") none),
        ({ onChain := true }, .name ⟨0, 1⟩ "a")] := by cbv
    rw [hall]
    exact .tail _ (.head _)
  have hm : ⟨.optionalChain, ⟨0, 13⟩, [⟨⟨10, 12⟩, "."⟩, ⟨⟨1, 3⟩, "."⟩]⟩ ∈
      Mutation.ofNode chained.source {} outer := by
    have houter : Token.find? chained.source 4 "?." = some ⟨10, 12⟩ := by cbv
    have hinner : Token.find? chained.source 1 "?." = some ⟨1, 3⟩ := by cbv
    simp [outer, Mutation.ofNode, Mutation.chainPatch, Mutation.mandatory, Node.span, houter,
      hinner]
  have happly : Patch.apply [⟨⟨10, 12⟩, "."⟩, ⟨⟨1, 3⟩, "."⟩] chained.source =
      .ok ("a.b // c\n.d", [⟨⟨1, 2⟩, "?."⟩, ⟨⟨9, 10⟩, "?."⟩]) := by cbv
  obtain ⟨g, id, hg, hx⟩ := exists_mutant {} parse_chained rfl hv hm happly (by decide)
  exact ⟨g, _, hg, hx, rfl, (confined_ofSource parse_chained rfl hg hx fun v hv _ =>
    .inl (plainLookups_chained v hv)).2⟩

/-- A sum whose first operator stands behind a comment that a carriage return ends. -/
def crossed : Program :=
  ⟨"a //\r+ b\n+ c", false, [.other ⟨0, 12⟩ .expressionStatement
    [.binary ⟨0, 12⟩ "+" (.binary ⟨0, 8⟩ "+" (.name ⟨0, 1⟩ "a") (.name ⟨7, 8⟩ "b"))
      (.name ⟨11, 12⟩ "c")]]⟩

theorem parse_crossed : Program.parse crossed.source = .ok crossed := by
  unfold Program.parse
  cbv

/-- The operator of the second line is replaced for the sum in the first one. -/
theorem not_confined_of_crossed : ∃ g x, ofSource {} crossed.source = .ok g ∧ x ∈ g.mutants ∧
    ¬ x.Confined := by
  let inner : Node := .binary ⟨0, 8⟩ "+" (.name ⟨0, 1⟩ "a") (.name ⟨7, 8⟩ "b")
  have hv : (({}, inner) : Standing × Node) ∈ crossed.visits "__assert__" := by
    have hall : crossed.visits "__assert__" = [({}, crossed.items.head!),
        ({}, .binary ⟨0, 12⟩ "+" inner (.name ⟨11, 12⟩ "c")), ({}, inner), ({}, .name ⟨0, 1⟩ "a"),
        ({}, .name ⟨7, 8⟩ "b"), ({}, .name ⟨11, 12⟩ "c")] := by cbv
    rw [hall]
    exact .tail _ (.tail _ (.head _))
  have hm : ⟨.arithmetic, ⟨0, 8⟩, [⟨⟨9, 10⟩, "-"⟩]⟩ ∈ Mutation.ofNode crossed.source {} inner := by
    have hfind : Token.find? crossed.source 1 "+" = some ⟨9, 10⟩ := by cbv
    have hkind : Catalog.binary? "+" = some (.arithmetic, ["-"]) := by cbv
    have hpad : Mutation.padded crossed.source ⟨9, 10⟩ "-" = "-" := by
      have hbefore : textBefore? crossed.source 9 = some "a //\r+ b\n" := by cbv
      have hafter : charsFrom? crossed.source 10 = some " c".toList := by cbv
      have hl : Mutation.fusesTexts "a //\r+ b\n".toList "-".toList = false := by cbv
      have hr : Mutation.fusesTexts "-".toList " c".toList = false := by cbv
      simp only [Mutation.padded, hbefore, hafter, Option.getD_some, hl, hr]
      rfl
    simp [inner, Mutation.ofNode, Mutation.operator, Node.span, hfind, hkind, hpad, Node.isNull,
      Node.peel, LogicalOp.ofText?]
  have happly : Patch.apply [⟨⟨9, 10⟩, "-"⟩] crossed.source =
      .ok ("a //\r+ b\n- c", [⟨⟨9, 10⟩, "+"⟩]) := by cbv
  obtain ⟨g, id, hg, hx⟩ := exists_mutant {} parse_crossed rfl hv hm happly (by decide)
  refine ⟨g, _, hg, hx, ?_⟩
  rintro ⟨before, after, hbefore, hafter, hprogram⟩
  have hrest : slice? crossed.source 8 12 = some "\n+ c" := by cbv
  have hplace : (Mutation.mutant crossed.source id ⟨.arithmetic, ⟨0, 8⟩, [⟨⟨9, 10⟩, "-"⟩]⟩
      "a //\r+ b\n- c").location.stop.index = 8 := by
    simp only [Mutation.mutant]
    cbv
  have hsize : crossed.source.utf8ByteSize = 12 := by decide
  rw [hplace] at hafter
  obtain rfl : "\n+ c" = after := Option.some.inj (hrest.symm.trans (hsize ▸ hafter))
  have hsuffix : "\n+ c".toList <:+ "a //\r+ b\n- c".toList :=
    ⟨_, (String.toList_append ..).symm.trans (congrArg String.toList hprogram).symm⟩
  revert hsuffix
  decide

theorem refusals_eq_nil_iff {ms : List Mutation} :
    ms.filterMap (Mutation.refusal? source) = [] ↔ ∀ m ∈ ms, ∃ r, m.patch.apply source = .ok r := by
  rw [List.filterMap_eq_nil_iff]
  refine forall₂_congr fun m _ => ?_
  unfold Mutation.refusal?
  split
  next r h => simp [h]
  next e h => simp [h]

theorem code_of_invalid? {d : Diagnostic} (h : invalid? x = some d) : d.code = .invalidMutant := by
  unfold invalid? at h
  split at h
  next => cases h
  next =>
    cases h
    rfl

/-- A generation keeps its invariants exactly if every mutation of the program can be made. -/
theorem keeps_invariants_iff (hp : Program.parse source = .ok p) :
    (∃ g, ofSource options source = .ok g ∧ ∀ d ∈ g.diagnostics, d.code ≠ .invariantViolation) ↔
      ∀ m ∈ Mutation.ofProgram options.assertion p, ∃ r, m.patch.apply source = .ok r := by
  rw [ofSource_of_parse hp, ← refusals_eq_nil_iff]
  dsimp only
  constructor
  · rintro ⟨g, hg, hcodes⟩
    split at hg
    next => cases hg
    next =>
      cases hg
      rw [List.eq_nil_iff_forall_not_mem]
      intro d hd
      exact hcodes d (List.mem_append_left _ hd) (Mutation.code_of_mem_refusals hd)
  · intro hnil
    rw [hnil]
    simp only [List.head?_nil, ite_self, List.nil_append]
    refine ⟨_, rfl, fun d hd => ?_⟩
    split at hd
    next =>
      obtain ⟨x, -, hx⟩ := List.mem_filterMap.mp hd
      rw [code_of_invalid? hx]
      nofun
    next => cases hd

/-- The edits that the mutations of a program make lie in its text and split no character, so that
an overlap of two of them is all that a mutation can be refused for. Where the comments are plain
no edits overlap. A generation keeps its invariants exactly if none do anywhere. -/
theorem refuses_overlaps_alone (options : MutationOptions) (hp : Program.parse source = .ok p)
    (hs : Program.bareText source = source.toList) :
    (∀ v ∈ p.visits options.assertion, ∀ m ∈ Mutation.ofNode source v.1 v.2,
      (∀ e, m.patch.apply source = .error e → ∃ a b, e = .overlap a b) ∧
        ((∃ r, m.patch.apply source = .ok r) ↔ m.patch.Pairwise Edit.Apart) ∧
        (v.2.plainLookups source = true → m.patch.Pairwise Edit.Apart)) ∧
      ((∃ g, ofSource options source = .ok g ∧
          ∀ d ∈ g.diagnostics, d.code ≠ .invariantViolation) ↔
        ∀ v ∈ p.visits options.assertion, ∀ m ∈ Mutation.ofNode source v.1 v.2,
          m.patch.Pairwise Edit.Apart) := by
  have hfits {v : Standing × Node} (hv : v ∈ p.visits options.assertion) {m : Mutation}
      (hm : m ∈ Mutation.ofNode source v.1 v.2) := Mutation.fitsAt_ofProgram hp hs hv hm
  refine ⟨fun v hv m hm => ?_, (keeps_invariants_iff hp).trans ⟨fun h v hv m hm => ?_, ?_⟩⟩
  · have hin := (hfits hv hm).edit_in
    exact ⟨fun e => Patch.exists_of_apply_error hin, Patch.apply_ok_iff hin,
      fun hplain => ((hfits hv hm).fits hplain).apart⟩
  · exact (Patch.apply_ok_iff (hfits hv hm).edit_in).mp
      (h m ((Mutation.mem_ofProgram_iff hp).mpr ⟨v, hv, hm⟩))
  · intro h m hm
    obtain ⟨v, hv, hm⟩ := (Mutation.mem_ofProgram_iff hp).mp hm
    exact (Patch.apply_ok_iff (hfits hv hm).edit_in).mpr (h v hv m hm)

theorem refuses_overlaps_alone_of_chained :
    ∃ g, ofSource { strict := true } chained.source = .ok g ∧
      ∀ d ∈ g.diagnostics, d.code ≠ .invariantViolation := by
  have h := refuses_overlaps_alone { strict := true } parse_chained rfl
  exact h.2.mpr fun v hv m hm => (h.1 v hv m hm).2.2 (plainLookups_chained v hv)

/-- A chain whose first mark stands behind a comment that a carriage return ends. -/
def crossedChain : Program :=
  ⟨"a //\r?.b\n?.c", false, [.other ⟨0, 12⟩ .expressionStatement
    [.chainMember ⟨0, 12⟩ true (.chainMember ⟨0, 8⟩ true (.name ⟨0, 1⟩ "a") none) none]]⟩

theorem parse_crossedChain : Program.parse crossedChain.source = .ok crossedChain := by
  unfold Program.parse
  cbv

theorem ofSource_strict_of_crossedChain : ofSource { strict := true } crossedChain.source =
    .error (.invariant
      "could not apply OptionalChain mutation: edits 9..11 and 9..11 overlap" []) := by
  have hprogram : Mutation.ofProgram "__assert__" crossedChain =
      [⟨.optionalChain, ⟨0, 12⟩, [⟨⟨9, 11⟩, "."⟩, ⟨⟨9, 11⟩, "."⟩]⟩] := by
    have hvisits : crossedChain.visits "__assert__" = [({}, crossedChain.items.head!),
        ({}, .chainMember ⟨0, 12⟩ true (.chainMember ⟨0, 8⟩ true (.name ⟨0, 1⟩ "a") none) none),
        ({ onChain := true }, .chainMember ⟨0, 8⟩ true (.name ⟨0, 1⟩ "a") none),
        ({ onChain := true }, .name ⟨0, 1⟩ "a")] := by cbv
    have houter : Token.find? "a //\r?.b\n?.c" 8 "?." = some ⟨9, 11⟩ := by cbv
    have hinner : Token.find? "a //\r?.b\n?.c" 1 "?." = some ⟨9, 11⟩ := by cbv
    rw [Mutation.ofProgram, hvisits]
    simp [Mutation.ofNode, Mutation.chainPatch, Mutation.mandatory, Node.span, houter, hinner,
      crossedChain]
  have happly : Patch.apply [⟨⟨9, 11⟩, "."⟩, ⟨⟨9, 11⟩, "."⟩] crossedChain.source =
      .error (.overlap ⟨9, 11⟩ ⟨9, 11⟩) := by cbv
  rw [ofSource_of_parse parse_crossedChain]
  simp only [hprogram, List.filterMap_cons, Mutation.refusal?, happly]
  simp [Mutation.mutants, Mutation.changed?, happly]
  decide

end Generation

end Adequacy
