import Adequacy.Proofs.StatementLayout

namespace Adequacy

namespace Parser

variable {text : List Char} {c : Surroundings} {s t : Progress} {rule : Productions} {n : Node}

@[simp] theorem takes_ofModule {α : Type} {p : Parser α} {a : α} : Takes text c s (ofModule p) a t ↔
    Takes text { c with strict := true, inModule := true } s p a t :=
  takes_withReader

theorem lays_inNewModule {p : Parser Node} (hp : Lays text p) : Lays text (inNewModule p) := by
  intro c s n t h
  simp [inNewModule] at h
  obtain ⟨u, hu, h⟩ := h
  have hsame : u.current = s.current := by
    have hrun := hu.run
    cases hrun
    rfl
  rw [← hsame]
  exact hp h

section imports

theorem laysAll_moduleSource (hr : RulesLay text rule) : LaysAll text (moduleSource rule) := by
  intro c s ns t h
  have ho := lays_objectLiteral hr
  simp [moduleSource] at h
  split at h
  next =>
    simp at h
    grind
  next => simp at h

theorem laysAll_fromClause (hr : RulesLay text rule) : LaysAll text (fromClause rule) := by
  intro c s ns t h
  simp [fromClause] at h
  obtain ⟨u, ⟨-, hu⟩, v, hv, hend, -⟩ := h
  have hsource := laysAll_moduleSource hr hv
  grind

theorem laysAll_importClause (hr : RulesLay text rule) : LaysAll text (importClause rule) := by
  intro c s ns t h
  have hfrom := laysAll_fromClause hr
  simp [importClause] at h
  rcases h with ⟨-, u, hu, hend, -⟩ | ⟨-, ⟨-, u, hu, h⟩ | ⟨-, u, hu, h⟩⟩
  · have hsource := laysAll_moduleSource hr hu
    grind
  · grind
  · grind

theorem lays_importDeclaration (hr : RulesLay text rule) : Lays text (importDeclaration rule) := by
  intro c s n t h
  have hp := h
  simp [importDeclaration] at hp
  obtain ⟨u, hu, parts, hv, -, rfl⟩ := hp
  have hparts := laysAll_importClause hr hv
  exact h.spans rfl rfl (by grind) (by grind) nofun trivial

end imports

section exports

theorem takes_exportDefault (hr : RulesLay text rule) (h : Takes text c s (exportDefault rule) n t) :
    n.Within text s.current.span.start t.last.stop := by
  simp [exportDefault, takes_bind_of_looks looks_atAsyncFunction] at h
  rcases h with ⟨-, h⟩ | ⟨-, ⟨-, ⟨-, h⟩ | ⟨-, u, hu, hend, -⟩⟩ | ⟨-, h⟩⟩
  · exact (lays_classFrom hr true false h).within
  · exact (lays_function hr true false h).within
  · have he := spans_assignment hr hu
    grind
  · exact (lays_function hr true false h).within

theorem laysAll_exportedNames (hr : RulesLay text rule) : LaysAll text (exportedNames rule) := by
  intro c s ns t h
  have hfrom := laysAll_fromClause hr
  simp [exportedNames] at h
  obtain ⟨names, u, hu, ⟨-, h⟩ | ⟨-, v, hv, hend, -, rfl⟩⟩ := h
  · grind
  · simp

theorem laysAll_exportedParts (hr : RulesLay text rule) (isAll : Bool) :
    LaysAll text (exportedParts rule isAll) := by
  intro c s ns t h
  have hsingle {p : Parser Node} {n : Node} (hp : Lays text p) (h : Takes text c s p n t) :
      Node.AllWithin text s.current.span.start t.last.stop [n] := by
    simpa using (hp h).within
  simp [exportedParts, takes_bind_of_looks looks_atAsyncFunction,
    takes_bind_of_looks looks_variableWord?] at h
  rcases h with ⟨-, u, hu, n, hn, -, rfl⟩ | ⟨-, ⟨-, n, hn, -, rfl⟩ |
    ⟨-, ⟨-, ⟨-, n, hn, -, rfl⟩ | ⟨-, found, -, h⟩⟩ | ⟨-, n, hn, -, rfl⟩⟩⟩
  · have hd := takes_exportDefault hr hn
    grind
  · exact hsingle (lays_classFrom hr true true) hn
  · exact hsingle (lays_function hr true true) hn
  · cases found with
    | some word =>
      simp at h
      obtain ⟨n, hn, -, rfl⟩ := h
      exact hsingle (lays_variableDeclaration hr word false) hn
    | none =>
      simp at h
      rcases h with ⟨-, h⟩ | ⟨-, h⟩
      · exact laysAll_fromClause hr h
      · exact laysAll_exportedNames hr h
  · exact hsingle (lays_function hr true true) hn

theorem laysAll_exportClause (hr : RulesLay text rule) : LaysAll text (exportClause rule) := by
  intro c s ns t h
  have hfrom := laysAll_fromClause hr
  have hparts := laysAll_exportedParts hr
  simp [exportClause] at h
  obtain ⟨-, ⟨-, u, hu, ⟨-, v, hv, name, place, ⟨w, hw, h⟩ | ⟨w, hw, h⟩⟩ | ⟨-, ⟨-, h⟩ | ⟨-, h⟩⟩⟩ |
    ⟨-, h⟩⟩ := h
  · grind
  · grind
  · grind
  · have := hparts true h
    grind
  · exact hparts false h

theorem lays_exportDeclaration (hr : RulesLay text rule) : Lays text (exportDeclaration rule) := by
  intro c s n t h
  have hp := h
  simp [exportDeclaration] at hp
  obtain ⟨u, hu, parts, hv, -, rfl⟩ := hp
  have hparts := laysAll_exportClause hr hv
  exact h.spans rfl rfl (by grind) (by grind) nofun trivial

end exports

theorem lays_importStatement (hr : RulesLay text rule) : Lays text (importStatement rule) := by
  intro c s n t h
  have hp := h
  simp [importStatement] at hp
  obtain ⟨e, u, hu, hend, -, rfl⟩ := hp
  exact h.spans rfl rfl (by grind) (by grind) nofun trivial

theorem lays_statementOrItem (hr : RulesLay text rule) (withDeclarations : Bool) :
    Lays text (statementOrItem rule withDeclarations) := by
  intro c s n t h
  simp [statementOrItem] at h
  rcases h with ⟨-, ⟨-, h⟩ | ⟨-, -, h⟩⟩ | ⟨-, ⟨-, -, h⟩ | ⟨-, h⟩⟩
  · exact lays_importStatement hr h
  · exact lays_inNewModule (lays_importDeclaration hr) h
  · exact lays_inNewModule (lays_exportDeclaration hr) h
  · exact lays_statement hr withDeclarations h

/-- Each item takes what is read for it. -/
theorem spans_item {n : Node} (hr : RulesLay text rule)
    (h : Takes text c s (do
      if ← atEnd then return none
      let item := rule (.statement true)
      some <$> if (← get).scanner.inModule then ofModule item else item) (some n) t) :
    n.Spans text s.current.span.start t.last.stop := by
  simp at h
  obtain ⟨-, ⟨-, h⟩ | ⟨-, h⟩⟩ := h
  · exact hr.statement true h
  · exact hr.statement true h

theorem laysAll_items (hr : RulesLay text rule) : LaysAll text (items rule) := by
  intro c s ns t h
  simp [items] at h
  exact allWithin_collect h fun s n t h => (spans_item hr h).within

/-- The items of a program stand in a row behind the last lexeme that was taken. -/
theorem inRow_items (hr : RulesLay text rule) {ns : List Node}
    (h : Takes text c s (items rule) ns t) : Node.InRow (NextAt text) s.last.stop ns := by
  simp [items] at h
  exact inRow_collect h fun s n t h => spans_item hr h

theorem not_takes_rules_zero {goal : Goal} : ¬ Takes text c s (rules 0 goal) n t := by
  simp [rules]

/-- What is parsed is laid out, however deep the rules go. -/
theorem rules_lay (text : List Char) (depth : Nat) : RulesLay text (rules depth) := by
  induction depth with
  | zero =>
    exact {
      assignment := fun _ _ _ _ h => absurd h not_takes_rules_zero
      unary := fun _ _ _ _ h => absurd h not_takes_rules_zero
      operators := fun h => absurd h not_takes_rules_zero
      leftHandSide := fun _ _ _ _ h => absurd h not_takes_rules_zero
      newCallee := fun _ _ _ _ h => absurd h not_takes_rules_zero
      bindingTarget := fun _ _ _ _ _ h => absurd h not_takes_rules_zero
      statement := fun _ _ _ _ _ h => absurd h not_takes_rules_zero }
  | succ depth ih =>
    exact {
      assignment := lays_assignmentExpression ih
      unary := lays_unaryExpression ih
      operators := fun h hl => spans_operators ih h hl
      leftHandSide := lays_leftHandSide ih
      newCallee := fun _ _ _ _ h => spans_newCallee ih h
      bindingTarget := lays_bindingTarget ih
      statement := lays_statementOrItem ih }

end Parser

namespace Scanner

/-- What is skipped in front of a program is a comment of the old form, if anything. -/
theorem ofText_reads (text : List Char) : ∃ gap, text = gap ++ (ofText (String.ofList text)).rest ∧
    (ofText (String.ofList text)).pos = byteSize gap ∧
    ∀ later rest, (ofText (String.ofList text)).rest = later ++ rest → Gap later rest →
      Gap (gap ++ later) rest := by
  unfold ofText
  simp only [String.toList_ofList]
  split
  next line =>
    have hline := endsLine_takeWhile line
    have hsharp : Scan.isLineEnd '#' = false := by decide
    have hbang : Scan.isLineEnd '!' = false := by decide
    refine ⟨"#!".toList ++ line.takeWhile (!Scan.isLineEnd ·), ?_, ?_, ?_⟩
    · simp [skipWhile, hsharp, hbang]
    · simp [skipWhile, hsharp, hbang]
    · intro later rest h hgap
      have hrest : line.dropWhile (!Scan.isLineEnd ·) = later ++ rest := by
        simpa [skipWhile, hsharp, hbang] using h
      rw [hrest] at hline
      rw [List.append_assoc]
      exact .old (by decide) hline hgap
  next => exact ⟨[], rfl, rfl, fun _ _ _ hgap => hgap⟩

end Scanner

namespace Program

/-- The first lexeme of a program fits in its text. -/
theorem fits_begin (text : List Char) (strict : Bool) :
    ((begin text).advance strict).Fits text := by
  obtain ⟨first, htext, hpos, hgaps⟩ := Scanner.ofText_reads text
  rcases hn : (begin text).scanner.next strict with ⟨found, u⟩
  obtain ⟨gap, cs, hrest, hgap, hstop, hspan, hw, hstart⟩ := Scanner.next_reads hn
  have hadvance : (begin text).advance strict =
      { begin text with current := found, scanner := u, last := .point 0 } := by
    simp only [Progress.advance, hn]
    rfl
  have hscanner : (begin text).scanner = Scanner.ofText (String.ofList text) := rfl
  rw [hscanner] at hrest hstop hstart
  rw [hpos] at hstop hstart
  rw [hadvance]
  refine ⟨[], first ++ gap, cs, ⟨?_, rfl, hgaps _ _ hrest hgap, ?_, ?_, hspan.symm, hw, by simp [begin]⟩⟩
  · dsimp only
    rw [htext]
    simp [hrest]
  · rcases hstart with hstart | hstart
    · left
      simpa using hstart
    · right
      have hold : Scan.OldStart (0 + byteSize first) gap found.span.start := by simpa using hstart
      exact hold.append
  · dsimp only
    rw [hspan, hstop, byteSize_append]
    simp

/-- What a parser reads from the beginning of a text on are its items. -/
theorem takes_of_run {text : List Char} {length : Nat} {items : List Node} {s : Progress}
    (h : (parser length).run {} (begin text) = (.ok items, s)) (hc : s.Clean) :
    ∃ u, Parser.Takes text {} u (Parser.items (Parser.rules (8 * (length + 2)))) items s := by
  unfold parser at h
  obtain ⟨_, u, hadvance, hitems⟩ := Moving.run_bind_eq_ok_iff.mp h
  have hu : u = (begin text).advance false := (congrArg Prod.snd hadvance).symm
  have hfits : u.Fits text := hu ▸ fits_begin text false
  exact ⟨u, hitems, hfits, hc⟩

/-- The items of a program are read from its text, behind a byte order mark if there is one. -/
theorem takes_items {source : String} {p : Program} (h : parse source = .ok p) :
    ∃ depth s t, Parser.Takes (bareText source) {} s (Parser.items (Parser.rules depth)) p.items t := by
  unfold parse at h
  rcases hrun : (parser (bareText source).length).run {} (begin (bareText source)) with ⟨result, t⟩
  dsimp only at h
  rw [hrun] at h
  cases result with
  | error e => cases h
  | ok items =>
    dsimp only at h
    have hitems := takes_of_run hrun
    split at h
    next => cases h
    next hnone =>
      cases h
      obtain ⟨s, htakes⟩ := hitems (List.append_eq_nil_iff.mp hnone).1
      exact ⟨_, s, t, htakes⟩

/-- The items of a program are laid out in its text, behind a byte order mark if there is one. -/
theorem allWithin_items {source : String} {p : Program} (h : parse source = .ok p) :
    ∃ lo hi, Node.AllWithin (bareText source) lo hi p.items := by
  obtain ⟨depth, s, t, htakes⟩ := takes_items h
  exact ⟨_, _, Parser.laysAll_items (Parser.rules_lay (bareText source) depth) htakes⟩

/-- The items of a program are in order. -/
theorem pairwise_items {source : String} {p : Program} (h : parse source = .ok p) :
    p.items.Pairwise (·.span.stop ≤ ·.span.start) := by
  obtain ⟨depth, s, t, htakes⟩ := takes_items h
  have hrules := Parser.rules_lay (bareText source) depth
  have hall := Parser.laysAll_items hrules htakes
  have hrow := (Parser.inRow_items hrules htakes).imp fun _ _ hnext => hnext.le
  exact hrow.pairwise fun n hn => (hall.1 n hn).laid.here.span_in

/-- The items of a program without a byte order mark are laid out in its text. -/
theorem laid_items {source : String} {p : Program} (h : parse source = .ok p)
    (hs : bareText source = source.toList) :
    ∀ n ∈ p.items, n.Everywhere (Node.Laid source.toList) := by
  obtain ⟨lo, hi, hall⟩ := allWithin_items h
  rw [hs] at hall
  exact fun n hn => (hall.1 n hn).laid

end Program

end Adequacy
