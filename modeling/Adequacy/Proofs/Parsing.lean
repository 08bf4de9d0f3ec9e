import Adequacy.ModuleSyntax
import Adequacy.Proofs.Layout

namespace Adequacy

namespace Parser

variable {α β : Type} {text : List Char} {c : Surroundings} {s t u : Progress}

/-- A parser takes one progress through the text to another without finding a fault. -/
structure Takes (text : List Char) (c : Surroundings) (s : Progress) (p : Parser α) (a : α)
    (t : Progress) : Prop where
  run : p.run c s = (.ok a, t)
  fits : s.Fits text
  clean : t.Clean

namespace Takes

variable {p : Parser α} {a : α}

theorem leads (h : Takes text c s p a t) :
    t.Fits text ∧ s.NoLater t ∧ s.scanner.faults <+: t.scanner.faults :=
  h.fits.leads (Moving.leads_of_run h.run)

theorem fits_after (h : Takes text c s p a t) : t.Fits text := h.leads.1

theorem noLater (h : Takes text c s p a t) : s.NoLater t := h.leads.2.1

theorem clean_before (h : Takes text c s p a t) : s.Clean := by
  have := h.leads.2.2
  rw [h.clean] at this
  exact List.prefix_nil.mp this

end Takes

@[simp low] theorem takes_bind {x : Parser α} {f : α → Parser β} {b : β} :
    Takes text c s (x >>= f) b u ↔ ∃ a t, Takes text c s x a t ∧ Takes text c t (f a) b u := by
  constructor
  · intro h
    obtain ⟨a, t, hx, hf⟩ := Moving.run_bind_eq_ok_iff.mp h.run
    have ht := h.fits.leads (Moving.leads_of_run hx)
    have hrest : Takes text c t (f a) b u := ⟨hf, ht.1, h.clean⟩
    exact ⟨a, t, ⟨hx, h.fits, hrest.clean_before⟩, hrest⟩
  · rintro ⟨a, t, hx, hf⟩
    exact ⟨Moving.run_bind_eq_ok_iff.mpr ⟨a, t, hx.run, hf.run⟩, hx.fits, hf.clean⟩

@[simp] theorem takes_bind_unit {x : Parser Unit} {f : Unit → Parser β} {b : β} :
    Takes text c s (x >>= f) b u ↔ ∃ t, Takes text c s x () t ∧ Takes text c t (f ()) b u := by
  rw [takes_bind]
  exact ⟨fun ⟨_, t, h⟩ => ⟨t, h⟩, fun ⟨t, h⟩ => ⟨(), t, h⟩⟩

@[simp] theorem takes_pure {a b : α} :
    Takes text c s (pure a) b t ↔ (s.Fits text ∧ s.Clean) ∧ b = a ∧ t = s := by
  constructor
  · rintro ⟨hrun, hfits, hclean⟩
    cases hrun
    exact ⟨⟨hfits, hclean⟩, rfl, rfl⟩
  · rintro ⟨⟨hfits, hclean⟩, rfl, rfl⟩
    exact ⟨rfl, hfits, hclean⟩

/-- A parser that only looks around is as good as what it answers. -/
theorem takes_bind_of_run {x : Parser α} {f : α → Parser β} {a : α} {b : β}
    (h : x.run c s = (.ok a, s)) :
    Takes text c s (x >>= f) b u ↔ Takes text c s (f a) b u := by
  have hrun := Moving.run_bind_of_run (f := f) h
  exact ⟨fun h => ⟨hrun ▸ h.run, h.fits, h.clean⟩, fun h => ⟨hrun ▸ h.run, h.fits, h.clean⟩⟩

section looking

variable {b : β}

@[simp] theorem takes_pure_bind {a : α} {f : α → Parser β} :
    Takes text c s (pure a >>= f) b u ↔ Takes text c s (f a) b u := takes_bind_of_run rfl

@[simp] theorem takes_get {f : Progress → Parser β} :
    Takes text c s (get >>= f) b u ↔ Takes text c s (f s) b u := takes_bind_of_run rfl

@[simp] theorem takes_read {f : Surroundings → Parser β} :
    Takes text c s (read >>= f) b u ↔ Takes text c s (f c) b u := takes_bind_of_run rfl

@[simp] theorem takes_current {f : Scanned → Parser β} :
    Takes text c s (current >>= f) b u ↔ Takes text c s (f s.current) b u := takes_bind_of_run rfl

@[simp] theorem takes_lexeme {f : Lexeme → Parser β} :
    Takes text c s (lexeme >>= f) b u ↔ Takes text c s (f s.current.lexeme) b u :=
  takes_bind_of_run rfl

@[simp] theorem takes_start {f : Nat → Parser β} :
    Takes text c s (start >>= f) b u ↔ Takes text c s (f s.current.span.start) b u :=
  takes_bind_of_run rfl

@[simp] theorem takes_spanFrom {start : Nat} {f : Span → Parser β} :
    Takes text c s (spanFrom start >>= f) b u ↔ Takes text c s (f ⟨start, s.last.stop⟩) b u :=
  takes_bind_of_run rfl

@[simp] theorem takes_ahead {f : Scanned → Parser β} :
    Takes text c s (ahead >>= f) b u ↔ Takes text c s (f (s.scanner.next c.strict).1) b u :=
  takes_bind_of_run rfl

@[simp] theorem takes_at? {spelling : String} {f : Bool → Parser β} :
    Takes text c s (at? spelling >>= f) b u ↔
      Takes text c s (f (s.current.lexeme == .punctuator spelling)) b u :=
  takes_bind_of_run rfl

@[simp] theorem takes_atWord {word : String} {f : Bool → Parser β} :
    Takes text c s (atWord word >>= f) b u ↔
      Takes text c s (f (s.current.lexeme == .word word)) b u :=
  takes_bind_of_run rfl

@[simp] theorem takes_atEnd {f : Bool → Parser β} :
    Takes text c s (atEnd >>= f) b u ↔ Takes text c s (f (s.current.lexeme == .eof)) b u :=
  takes_bind_of_run rfl

@[simp] theorem takes_afterNewline {f : Bool → Parser β} :
    Takes text c s (afterNewline >>= f) b u ↔ Takes text c s (f s.current.afterNewline) b u :=
  takes_bind_of_run rfl

@[simp] theorem takes_bound {f : Nat → Parser β} :
    Takes text c s (bound >>= f) b u ↔ Takes text c s (f (s.scanner.rest.length + 2)) b u :=
  takes_bind_of_run rfl

end looking

@[simp] theorem takes_add {e : SyntaxError} {a : Unit} : ¬ Takes text c s (add e) a t := by
  intro h
  have hrun := h.run
  cases hrun
  have := h.clean
  simp [Progress.Clean, Progress.addFault, Scanner.addFault] at this

@[simp] theorem takes_throw {e : SyntaxError} {a : α} : ¬ Takes text c s (throw e) a t :=
  fun h => nomatch h.run

@[simp] theorem takes_note {fault : SyntaxFault} {span : Span} {a : Unit} :
    ¬ Takes text c s (note fault span) a t := by
  simp [note, takes_bind]

@[simp] theorem takes_fail {fault : SyntaxFault} {span : Span} {a : α} :
    ¬ Takes text c s (fail fault span) a t := by
  simp [fail, takes_bind]

@[simp] theorem takes_failHere {fault : SyntaxFault} {a : α} :
    ¬ Takes text c s (failHere fault) a t := by
  simp [failHere, takes_bind]

@[simp] theorem takes_unexpected {wanted : String} {a : α} :
    ¬ Takes text c s (unexpected wanted) a t := by
  simp [unexpected, takes_bind]

@[simp] theorem takes_ite {P : Prop} [Decidable P] {p q : Parser α} {a : α} :
    Takes text c s (if P then p else q) a t ↔ (P ∧ Takes text c s p a t) ∨ (¬ P ∧ Takes text c s q a t) := by
  split <;> simp_all

@[simp] theorem takes_withReader {f : Surroundings → Surroundings} {p : Parser α} {a : α} :
    Takes text c s (withReader f p) a t ↔ Takes text (f c) s p a t :=
  ⟨fun h => ⟨h.run, h.fits, h.clean⟩, fun h => ⟨h.run, h.fits, h.clean⟩⟩

@[simp] theorem takes_allowingIn {p : Parser α} {a : α} :
    Takes text c s (allowingIn p) a t ↔ Takes text { c with allowIn := true } s p a t :=
  takes_withReader

@[simp] theorem takes_inside {p : Parser α} {a : α} :
    Takes text c s (inside p) a t ↔ Takes text { c with topLevel := false } s p a t :=
  takes_withReader

@[simp] theorem takes_map {f : α → β} {p : Parser α} {b : β} :
    Takes text c s (f <$> p) b t ↔ ∃ a, Takes text c s p a t ∧ b = f a := by
  have h : (f <$> p : Parser β) = p >>= fun a => pure (f a) := rfl
  rw [h, takes_bind]
  constructor
  · rintro ⟨a, u, hp, hb⟩
    obtain ⟨-, rfl, rfl⟩ := takes_pure.mp hb
    exact ⟨a, hp, rfl⟩
  · rintro ⟨a, hp, rfl⟩
    exact ⟨a, t, hp, takes_pure.mpr ⟨⟨hp.fits_after, hp.clean⟩, rfl, rfl⟩⟩

/-- A parser that takes the current lexeme if it is the wanted one, and else answers no. -/
theorem takes_bind_of_taker {taker : Parser Bool} {wanted : Lexeme} {f : Bool → Parser β} {b : β}
    (h : taker.run c s = (if s.current.lexeme = wanted then (do advance; return true)
      else return false : Parser Bool).run c s) :
    Takes text c s (taker >>= f) b u ↔
      (s.current.lexeme = wanted ∧
        ∃ t, Takes text c s advance () t ∧ Takes text c t (f true) b u) ∨
      (s.current.lexeme ≠ wanted ∧ Takes text c s (f false) b u) := by
  by_cases hs : s.current.lexeme = wanted
  · rw [if_pos hs] at h
    simp only [hs, true_and, ne_eq, not_true_eq_false, false_and, or_false]
    rw [takes_bind]
    constructor
    · rintro ⟨found, t, ⟨hrun, hfits, hclean⟩, hf⟩
      rw [h] at hrun
      cases hrun
      exact ⟨_, ⟨rfl, hfits, hclean⟩, hf⟩
    · rintro ⟨t, ⟨hrun, hfits, hclean⟩, hf⟩
      cases hrun
      exact ⟨true, _, ⟨h, hfits, hclean⟩, hf⟩
  · rw [if_neg hs] at h
    simp only [hs, false_and, ne_eq, not_false_eq_true, true_and, false_or]
    exact takes_bind_of_run h

@[simp] theorem takes_eat {spelling : String} {f : Bool → Parser β} {b : β} :
    Takes text c s (eat spelling >>= f) b u ↔
      (s.current.lexeme = .punctuator spelling ∧
        ∃ t, Takes text c s advance () t ∧ Takes text c t (f true) b u) ∨
      (s.current.lexeme ≠ .punctuator spelling ∧ Takes text c s (f false) b u) := by
  refine takes_bind_of_taker ?_
  change (if s.current.lexeme == .punctuator spelling then _ else _ : Parser Bool).run c s = _
  simp only [beq_iff_eq]

@[simp] theorem takes_eatWord {word : String} {f : Bool → Parser β} {b : β} :
    Takes text c s (eatWord word >>= f) b u ↔
      (s.current.lexeme = .word word ∧
        ∃ t, Takes text c s advance () t ∧ Takes text c t (f true) b u) ∨
      (s.current.lexeme ≠ .word word ∧ Takes text c s (f false) b u) := by
  refine takes_bind_of_taker ?_
  change (if s.current.lexeme == .word word then _ else _ : Parser Bool).run c s = _
  simp only [beq_iff_eq]

@[simp] theorem takes_expect {spelling : String} {a : Unit} : Takes text c s (expect spelling) a t ↔
    s.current.lexeme = .punctuator spelling ∧ Takes text c s advance () t := by
  simp [expect]
  exact fun _ h => ⟨h.fits_after, h.clean⟩

@[simp] theorem takes_expectWord {word : String} {a : Unit} : Takes text c s (expectWord word) a t ↔
    s.current.lexeme = .word word ∧ Takes text c s advance () t := by
  simp [expectWord]
  exact fun _ h => ⟨h.fits_after, h.clean⟩

/-- The current lexeme is the last one once it is taken. -/
@[grind →] theorem Takes.last_eq {a : Unit} (h : Takes text c s advance a t) : t.last = s.current.span := by
  have hrun := h.run
  cases hrun
  rfl

/-- What is known of the places that a parser leads from and to. -/
@[grind →] theorem Takes.le {p : Parser α} {a : α} (h : Takes text c s p a t) :
    s.last.stop ≤ s.current.span.start ∧ s.current.span.start ≤ t.current.span.start ∧
      s.last.stop ≤ t.last.stop ∧ t.last.stop ≤ t.current.span.start :=
  ⟨h.fits.stop_le_start, h.noLater.start_le, h.noLater.stop_le, h.fits_after.stop_le_start⟩

@[grind →] theorem Takes.le_of_advance {a : Unit} (h : Takes text c s advance a t) :
    s.current.span.start ≤ t.last.stop := by
  rw [h.last_eq]
  exact h.fits.start_le_stop

/-- A punctuator that is taken is not empty. -/
@[grind →] theorem Takes.lt_of_punctuator {a : Unit} {op : String} (h : Takes text c s advance a t)
    (hs : s.current.lexeme = .punctuator op) (hop : op ≠ "") :
    s.current.span.start < t.last.stop := by
  rw [h.last_eq]
  refine h.fits.start_lt_stop fun cs hcs => ?_
  rw [hs] at hcs
  rw [show cs = op.toList from hcs]
  exact fun hnil => hop (String.toList_eq_nil_iff.mp hnil)

/-- A keyword that is taken is not empty. -/
theorem Takes.lt_of_keyword {a : Unit} {word : String} (h : Takes text c s advance a t)
    (hs : s.current.lexeme = .word word) (hk : word ∈ Scan.keywords) :
    s.current.span.start < t.last.stop := by
  have hne : ∀ w ∈ Scan.keywords, w.toList ≠ [] := by decide
  rw [h.last_eq]
  refine h.fits.start_lt_stop fun cs hcs => ?_
  rw [hs] at hcs
  rw [hcs hk]
  exact hne word hk

/-- What is read from an offset on is laid out as a node if its parts are. -/
theorem Takes.spans_from {p : Parser α} {a : α} {n : Node} {lo : Nat} (h : Takes text c s p a t)
    (hlo : isBoundary lo text = true) (hstart : n.span.start = lo) (hstop : n.span.stop = t.last.stop)
    (hle : lo ≤ t.last.stop) (hc : Node.AllWithin text lo t.last.stop n.children)
    (hmut : n.isMutable = true → lo < t.last.stop ∧ Node.NoneSpans lo t.last.stop n.children)
    (hshape : n.Shaped text) : n.Spans text lo t.last.stop :=
  .intro hstart hstop ⟨hlo, h.fits_after.last_isBoundary, hle⟩ hc hmut hshape

/-- What a parser reads is laid out as a node if its parts are. -/
theorem Takes.spans {p : Parser α} {a : α} {n : Node} (h : Takes text c s p a t)
    (hstart : n.span.start = s.current.span.start) (hstop : n.span.stop = t.last.stop)
    (hle : s.current.span.start ≤ t.last.stop)
    (hc : Node.AllWithin text s.current.span.start t.last.stop n.children)
    (hmut : n.isMutable = true → s.current.span.start < t.last.stop ∧
      Node.NoneSpans s.current.span.start t.last.stop n.children)
    (hshape : n.Shaped text) : n.Spans text s.current.span.start t.last.stop :=
  h.spans_from h.fits.start_isBoundary hstart hstop hle hc hmut hshape

/-- The parser's node takes all of the text that it reads. -/
def Lays (text : List Char) (p : Parser Node) : Prop :=
  ∀ ⦃c s n t⦄, Takes text c s p n t → n.Spans text s.current.span.start t.last.stop

/-- The parser's nodes are in the text that it reads. -/
def LaysAll (text : List Char) (p : Parser (List Node)) : Prop :=
  ∀ ⦃c s ns t⦄, Takes text c s p ns t →
    Node.AllWithin text s.current.span.start t.last.stop ns

@[grind →] theorem Lays.spans {p : Parser Node} {n : Node} (hp : Lays text p)
    (h : Takes text c s p n t) : n.Spans text s.current.span.start t.last.stop := hp h

@[grind →] theorem LaysAll.allWithin {p : Parser (List Node)} {ns : List Node} (hp : LaysAll text p)
    (h : Takes text c s p ns t) : Node.AllWithin text s.current.span.start t.last.stop ns := hp h

/-- What the parsers of the goals lay out. Operators go on with an operand that reaches to the last
lexeme. Behind `new` there is an arrow function only where the head of one is expected. -/
structure RulesLay (text : List Char) (rule : Productions) : Prop where
  assignment : Lays text (rule .assignment)
  unary : Lays text (rule .unary)
  operators {left : Node} {above lo : Nat} ⦃c : Surroundings⦄ ⦃s t : Progress⦄ ⦃n : Node⦄
    (h : Takes text c s (rule (.operators left above)) n t) (hl : left.Spans text lo s.last.stop) :
    n.Spans text lo t.last.stop
  leftHandSide : Lays text (rule .leftHandSide)
  newCallee ⦃c : Surroundings⦄ ⦃s t : Progress⦄ ⦃n : Node⦄
    (h : Takes text c s (rule .newCallee) n t) :
    n.Spans text s.current.span.start t.last.stop ∧
      (s.arrowStart ≠ some s.current.span.start → n.isArrow = false)
  bindingTarget (isLexical : Bool) : Lays text (rule (.bindingTarget isLexical))
  statement (withDeclarations : Bool) : Lays text (rule (.statement withDeclarations))

attribute [grind →] RulesLay.assignment RulesLay.unary RulesLay.leftHandSide

theorem allWithin_collect_go {step : Parser (Option Node)} {fuel lo : Nat} {read ns : List Node}
    (hs : ∀ ⦃s n t⦄, Takes text c s step (some n) t →
      n.Within text s.current.span.start t.last.stop)
    (h : Takes text c s (collect.go step fuel read) ns t) (hlo : lo ≤ s.current.span.start)
    (hread : Node.AllWithin text lo s.last.stop read) : Node.AllWithin text lo t.last.stop ns := by
  induction fuel generalizing read s with
  | zero =>
    simp [collect.go] at h
    grind
  | succ fuel ih =>
    simp [collect.go] at h
    obtain ⟨found, u, hu, h⟩ := h
    cases found with
    | none =>
      simp at h
      grind
    | some n =>
      have hn := hs hu
      exact ih h (by grind) (by grind)

/-- A repeated step lays out nodes if the step does. -/
theorem allWithin_collect {step : Parser (Option Node)} {ns : List Node}
    (h : Takes text c s (collect step) ns t)
    (hs : ∀ ⦃s n t⦄, Takes text c s step (some n) t →
      n.Within text s.current.span.start t.last.stop) :
    Node.AllWithin text s.current.span.start t.last.stop ns := by
  simp [collect] at h
  exact allWithin_collect_go hs h (Nat.le_refl _) (by simp)

theorem inRow_collect_go {step : Parser (Option Node)} {fuel offset : Nat} {read ns : List Node}
    (hs : ∀ ⦃s n t⦄, Takes text c s step (some n) t →
      n.Spans text s.current.span.start t.last.stop)
    (h : Takes text c s (collect.go step fuel read) ns t)
    (hread : ∀ later, Node.InRow (NextAt text) s.last.stop later →
      Node.InRow (NextAt text) offset (read.reverse ++ later)) :
    Node.InRow (NextAt text) offset ns := by
  -- `hread` says that what is read so far is a row up to the last lexeme.
  induction fuel generalizing read s with
  | zero =>
    simp [collect.go] at h
    have hrow := hread [] trivial
    grind
  | succ fuel ih =>
    simp [collect.go] at h
    obtain ⟨found, u, hu, h⟩ := h
    cases found with
    | none =>
      simp at h
      have hrow := hread [] trivial
      grind
    | some n =>
      have hn := hs hu
      refine ih h fun later hlater => ?_
      have hrow := hread (n :: later)
      rw [List.reverse_cons, List.append_assoc]
      refine hrow ⟨?_, ?_⟩
      · rw [hn.start_eq]
        exact hu.fits.nextAt
      · rw [hn.stop_eq]
        exact hlater

/-- What a repeated step reads stands in a row, if each step reads what its node takes. -/
theorem inRow_collect {step : Parser (Option Node)} {ns : List Node}
    (h : Takes text c s (collect step) ns t)
    (hs : ∀ ⦃s n t⦄, Takes text c s step (some n) t →
      n.Spans text s.current.span.start t.last.stop) :
    Node.InRow (NextAt text) s.last.stop ns := by
  simp [collect] at h
  exact inRow_collect_go hs h fun _ h => h

/-- A parser that answers without a change to the progress. -/
def Looks (p : Parser α) : Prop := ∀ c s, ∃ a, p.run c s = (.ok a, s)

theorem takes_bind_of_looks {x : Parser α} (hx : Looks x) {f : α → Parser β} {b : β} :
    Takes text c s (x >>= f) b u ↔ ∃ a, x.run c s = (.ok a, s) ∧ Takes text c s (f a) b u := by
  obtain ⟨a, ha⟩ := hx c s
  rw [takes_bind_of_run ha]
  constructor
  · intro h
    exact ⟨a, ha, h⟩
  · rintro ⟨a', ha', h⟩
    rw [ha] at ha'
    cases ha'
    exact h

theorem run_lexeme_bind (f : Lexeme → Parser β) (c : Surroundings) (s : Progress) :
    (lexeme >>= f).run c s = (f s.current.lexeme).run c s := rfl

theorem looks_word? : Looks word? := by
  intro c s
  rw [word?, run_lexeme_bind]
  split <;> exact ⟨_, rfl⟩

@[simp] theorem takes_word? {f : Option String → Parser β} {b : β} :
    Takes text c s (word? >>= f) b u ↔ ∃ w, word?.run c s = (.ok w, s) ∧ Takes text c s (f w) b u :=
  takes_bind_of_looks looks_word?

theorem looks_atStatementEnd : Looks atStatementEnd := by
  intro c s
  rw [atStatementEnd, run_lexeme_bind]
  split <;> exact ⟨_, rfl⟩

@[simp] theorem takes_atStatementEnd {f : Bool → Parser β} {b : β} :
    Takes text c s (atStatementEnd >>= f) b u ↔
      ∃ e, atStatementEnd.run c s = (.ok e, s) ∧ Takes text c s (f e) b u :=
  takes_bind_of_looks looks_atStatementEnd

theorem Looks.eq {x : Parser α} (hx : Looks x) {a : α} (h : Takes text c s x a t) : t = s := by
  obtain ⟨b, hb⟩ := hx c s
  have hrun := h.run
  rw [hb] at hrun
  cases hrun
  rfl

@[grind →] theorem Takes.stays_or_advances {a : Bool} (h : Takes text c s endStatement a t) :
    t = s ∨ Takes text c s advance () t := by
  simp [endStatement] at h
  rcases h with ⟨-, hu, -⟩ | ⟨-, h⟩
  · exact Or.inr hu
  · exact Or.inl (looks_atStatementEnd.eq h)

@[grind →] theorem Takes.of_expectStatementEnd {a : Unit}
    (h : Takes text c s expectStatementEnd a t) : t = s ∨ Takes text c s advance () t := by
  simp [expectStatementEnd] at h
  exact h.1.stays_or_advances

theorem looks_atReference : Looks atReference := by
  intro c s
  obtain ⟨w, hw⟩ := looks_word? c s
  cases w with
  | none => exact ⟨_, Moving.run_bind_of_run hw⟩
  | some w => exact ⟨_, Moving.run_bind_of_run hw⟩

@[simp] theorem takes_atReference {f : Bool → Parser β} {b : β} :
    Takes text c s (atReference >>= f) b u ↔
      ∃ e, atReference.run c s = (.ok e, s) ∧ Takes text c s (f e) b u :=
  takes_bind_of_looks looks_atReference

/-- A fault that is caught is either handled or given up on. -/
@[simp] theorem takes_tryCatch {x : Parser α} {handle : SyntaxError → Parser α} {a : α} :
    Takes text c s (tryCatch x handle) a t ↔ Takes text c s x a t ∨
      s.Fits text ∧ ∃ e u, x.run c s = (.error e, u) ∧ Takes text c u (handle e) a t := by
  constructor
  · rintro ⟨h, hfits, hclean⟩
    rcases Moving.run_tryCatch_eq_ok_iff.mp h with h | ⟨e, u, hx, h⟩
    · exact Or.inl ⟨h, hfits, hclean⟩
    · exact Or.inr ⟨hfits, e, u, hx, h, (hfits.leads (Moving.leads_of_run hx)).1, hclean⟩
  · rintro (⟨h, hfits, hclean⟩ | ⟨hfits, e, u, hx, h⟩)
    · exact ⟨Moving.run_tryCatch_eq_ok_iff.mpr (.inl h), hfits, hclean⟩
    · exact ⟨Moving.run_tryCatch_eq_ok_iff.mpr (.inr ⟨e, u, hx, h.run⟩), hfits, h.clean⟩

@[grind →] theorem Takes.of_rescan {again : Rereading} {a : Unit}
    (h : Takes text c s (rescan again) a t) : t = s.rescan again ∧
      t.current.span.start = s.current.span.start ∧ t.last = s.last := by
  have hrun := h.run
  cases hrun
  exact ⟨rfl, s.rescan_place again⟩

@[grind →] theorem Takes.same_of_noteStrict {fault : SyntaxFault} {span : Span} {a : Unit}
    (h : Takes text c s (noteStrict fault span) a t) : t.current = s.current ∧ t.last = s.last := by
  have hrun := h.run
  cases hrun
  exact ⟨rfl, rfl⟩

/-- A name that is the lexeme at hand is laid out once that is taken. -/
theorem Takes.spans_name {p : Parser α} {a : α} {w : String} (h : Takes text c s p a t)
    (hlast : t.last = s.current.span) :
    Node.Spans text s.current.span.start t.last.stop (.name s.current.span w) := by
  have hle := h.fits.start_le_stop
  exact h.spans rfl (by rw [hlast]; rfl) (by rw [hlast]; exact hle) (by simp [Node.children]) nofun trivial

theorem lays_name (isBound : Bool) : Lays text (name isBound) := by
  intro c s n t h
  have hp := h
  simp [name] at hp
  obtain ⟨w, -, hp⟩ := hp
  cases w with
  | none => simp at hp
  | some w =>
    simp at hp
    obtain ⟨rfl, hlast⟩ : n = .name s.current.span w ∧ t.last = s.current.span := by grind
    exact h.spans_name hlast

@[grind →] theorem Takes.eq_of_checkBound {n : Node} {a : Unit}
    (h : Takes text c s (checkBound n) a t) : t = s := by
  cases n with
  | name => simp [checkBound] at h; exact h.2.2
  | _ => simp [checkBound] at h; exact h.2

theorem lays_boundName (isLexical : Bool) : Lays text (boundName isLexical) := by
  intro c s n t h
  simp [boundName] at h
  obtain ⟨u, hn, hlast⟩ : ∃ u, Takes text c s (name true) n u ∧ t.last = u.last := by grind
  rw [hlast]
  exact lays_name true hn

theorem Takes.of_anyWord {w : String × Span} (h : Takes text c s anyWord w t) :
    w.2 = s.current.span ∧ t.last = s.current.span := by
  simp [anyWord] at h
  obtain ⟨w', -, h⟩ := h
  cases w' with
  | none => simp at h
  | some w' =>
    simp at h
    grind

@[grind →] theorem Takes.of_privateName {w : String × Span} (h : Takes text c s privateName w t) :
    w.2 = ⟨s.current.span.start, t.last.stop⟩ ∧ s.current.span.start ≤ t.last.stop := by
  simp [privateName] at h
  obtain ⟨u, ⟨-, hu⟩, -, v, w, hv, -, rfl⟩ := h
  exact ⟨rfl, by grind⟩

theorem lays_reference : Lays text reference := by
  intro c s n t h
  have hp := h
  simp [reference] at hp
  rcases hp with ⟨-, hp⟩ | ⟨-, w, place, hu, -, -, rfl⟩
  · exact lays_name false hp
  · obtain ⟨hplace, hlast⟩ := hu.of_anyWord
    cases (hplace : place = s.current.span)
    exact h.spans_name hlast

end Parser

end Adequacy
