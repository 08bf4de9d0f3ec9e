import Adequacy.Parser
import Adequacy.Proofs.Lexing

namespace Adequacy

namespace Scanner

theorem scanned_leads (s : Scanner) (start : Nat) (afterNewline : Bool) (reader : Scan Lexeme) :
    Leads s (s.scanned start afterNewline reader).2 := reader.leads () s

theorem next_leads (s : Scanner) (strict : Bool) : Leads s (s.next strict).2 :=
  Leads.trans ((Scan.skipBlanks (s.rest.length + 1) { newline := s.pos == 0 }).leads () s)
    (scanned_leads _ _ _ _)

end Scanner

namespace Progress

/-- No fault has been found. -/
def Clean (s : Progress) : Prop := s.scanner.faults = []

/-- The lexeme at hand, spelled `cs`, stands behind a gap and the text of all lexemes before it. -/
structure Stands (text : List Char) (s : Progress) (front gap cs : List Char) : Prop where
  text_eq : text = front ++ (gap ++ (cs ++ s.scanner.rest))
  last_stop : s.last.stop = byteSize front
  isGap : Gap gap (cs ++ s.scanner.rest)
  start_eq : s.current.span.start = byteSize front + byteSize gap ∨
    Scan.OldStart (byteSize front) gap s.current.span.start
  stop_eq : s.current.span.stop = byteSize front + byteSize gap + byteSize cs
  pos_eq : s.scanner.pos = s.current.span.stop
  written : s.current.lexeme.Written cs
  arrow_le : ∀ start ∈ s.arrowStart, start ≤ s.current.span.start

/-- The progress is one through the text. -/
def Fits (text : List Char) (s : Progress) : Prop := ∃ front gap cs, s.Stands text front gap cs

/-- A progress that comes no later than another one. Unless both are at the same lexeme, the one at
hand was taken. -/
structure NoLater (s t : Progress) : Prop where
  stop_le : s.last.stop ≤ t.last.stop
  start_le : s.current.span.start ≤ t.current.span.start
  same_or_taken : s.current.span.start = t.current.span.start ∧ s.last = t.last ∨
    s.current.span.start ≤ t.last.stop

theorem NoLater.refl (s : Progress) : NoLater s s := ⟨Nat.le_refl _, Nat.le_refl _, .inl ⟨rfl, rfl⟩⟩

theorem NoLater.trans {s t u : Progress} (h : NoLater s t) (h' : NoLater t u) : NoLater s u := by
  refine ⟨h.stop_le.trans h'.stop_le, h.start_le.trans h'.start_le, ?_⟩
  rcases h.same_or_taken with ⟨h1, h2⟩ | h1
  · rw [h1, h2]
    exact h'.same_or_taken
  · exact Or.inr (h1.trans h'.stop_le)

variable {text : List Char} {s t : Progress}

theorem Stands.congr {front gap cs : List Char} (h : s.Stands text front gap cs)
    (hc : t.current = s.current) (hl : t.last = s.last)
    (hr : t.scanner.rest = s.scanner.rest) (hp : t.scanner.pos = s.scanner.pos)
    (ha : ∀ start ∈ t.arrowStart, start ∈ s.arrowStart ∨ start = s.current.span.start) :
    t.Stands text front gap cs := by
  refine ⟨by rw [hr]; exact h.text_eq, by rw [hl]; exact h.last_stop, by rw [hr]; exact h.isGap,
    by rw [hc]; exact h.start_eq, by rw [hc]; exact h.stop_eq, by rw [hp, hc]; exact h.pos_eq,
    by rw [hc]; exact h.written, fun start hstart => ?_⟩
  rw [hc]
  rcases ha start hstart with hs | rfl
  · exact h.arrow_le start hs
  · exact Nat.le_refl _

theorem Stands.start_le_stop {front gap cs : List Char} (h : s.Stands text front gap cs) :
    s.last.stop ≤ s.current.span.start ∧
      s.current.span.start ≤ byteSize front + byteSize gap ∧
      s.current.span.start ≤ s.current.span.stop := by
  have h1 := h.last_stop
  have h2 := h.stop_eq
  rcases h.start_eq with h3 | ⟨as, mark, bs, rfl, h3, -⟩
  · omega
  · rw [byteSize_append] at h2 ⊢
    omega

theorem Fits.stop_le_start (h : s.Fits text) : s.last.stop ≤ s.current.span.start := by
  obtain ⟨front, gap, cs, h⟩ := h
  exact h.start_le_stop.1

theorem Fits.start_le_stop (h : s.Fits text) : s.current.span.start ≤ s.current.span.stop := by
  obtain ⟨front, gap, cs, h⟩ := h
  exact h.start_le_stop.2.2

/-- No head of an arrow function is expected ahead. -/
theorem Fits.arrow_le (h : s.Fits text) : ∀ start ∈ s.arrowStart, start ≤ s.current.span.start := by
  obtain ⟨front, gap, cs, h⟩ := h
  exact h.arrow_le

/-- The next lexeme stands behind the one at hand. -/
theorem Fits.advance (h : s.Fits text) (strict : Bool) : (s.advance strict).Fits text := by
  obtain ⟨front, gap, cs, h⟩ := h
  rcases hn : s.scanner.next strict with ⟨found, u⟩
  obtain ⟨gap', cs', hrest, hgap, hpos, hstop, hw, hstart⟩ := Scanner.next_reads hn
  have hadvance : s.advance strict = { s with current := found, scanner := u, last := s.current.span } := by
    simp only [Progress.advance, hn]
  have hfront : s.scanner.pos = byteSize (front ++ (gap ++ cs)) := by
    rw [h.pos_eq, h.stop_eq, byteSize_append, byteSize_append, Nat.add_assoc]
  rw [hfront] at hpos hstart
  refine ⟨front ++ (gap ++ cs), gap', cs', ?_⟩
  rw [hadvance]
  refine ⟨?_, ?_, hgap, hstart, hstop.trans hpos, hstop.symm, hw, fun start hs => ?_⟩
  · rw [h.text_eq, hrest]
    simp
  · rw [← hfront, h.pos_eq]
  · have hle := h.arrow_le start hs
    have hspan := h.start_le_stop
    have hat := h.pos_eq
    change start ≤ found.span.start
    rcases hstart with hstart | ⟨as, mark, bs, -, hstart, -⟩ <;> omega

theorem Rereading.reader_writes {again : Rereading} {s t : Scanner} {spelling : String}
    {rest cs : List Char} {l : Lexeme} (hs : spelling ∈ again.spellings)
    (hrest : s.rest = spelling.toList ++ rest) (h : again.reader.run () s = (.ok l, t))
    (hr : s.rest = cs ++ t.rest) : l.Written cs := by
  cases again with
  | template =>
    cases List.mem_singleton.mp hs
    exact Scan.template_writes h hrest (by decide) hr
  | regex =>
    obtain ⟨c, later, hc⟩ : ∃ c later, spelling.toList = c :: later := by
      rcases List.mem_cons.mp hs with rfl | hs
      · exact ⟨_, _, rfl⟩
      · cases List.mem_singleton.mp hs
        exact ⟨_, _, rfl⟩
    exact Scan.regex_writes h (hrest.trans (by rw [hc]; rfl)) hr

theorem rescan_eq_or (s : Progress) (again : Rereading) : s.rescan again = s ∨
    ∃ spelling ∈ again.spellings, s.current.lexeme = .punctuator spelling ∧ ∃ found u,
      Scanner.scanned { s.scanner with
          rest := spelling.toList ++ s.scanner.rest
          pos := s.scanner.pos - spelling.utf8ByteSize }
        s.current.span.start s.current.afterNewline again.reader = (found, u) ∧
      s.rescan again = { s with current := found, scanner := u } := by
  unfold rescan
  split
  next spelling h =>
    split
    next hmem => exact Or.inr ⟨spelling, hmem, h, _, _, rfl, rfl⟩
    next => exact Or.inl rfl
  next => exact Or.inl rfl

/-- A lexeme that is read again stands where it stood. -/
theorem Fits.rescan (h : s.Fits text) (again : Rereading) :
    (s.rescan again).Fits text ∧ NoLater s (s.rescan again) ∧
      s.scanner.faults <+: (s.rescan again).scanner.faults := by
  rcases rescan_eq_or s again with heq | ⟨spelling, hmem, hspelling, found, v, hn, heq⟩
  · rw [heq]
    exact ⟨h, .refl s, List.prefix_rfl⟩
  · rw [heq]
    obtain ⟨front, gap, cs, h⟩ := h
    have hw := h.written
    rw [hspelling] at hw
    cases (hw : cs = spelling.toList)
    obtain ⟨hspan, cs', hrest, hpos, hw'⟩ := Scanner.scanned_reads hn
      fun l cs => Rereading.reader_writes hmem rfl
    have hrest : spelling.toList ++ s.scanner.rest = cs' ++ v.rest := hrest
    have hpos : v.pos = s.scanner.pos - spelling.utf8ByteSize + byteSize cs' := hpos
    have hstop : v.pos = byteSize front + byteSize gap + byteSize cs' := by
      rw [hpos, h.pos_eq, h.stop_eq, utf8ByteSize_eq_byteSize]
      omega
    have hstart : found.span.start = s.current.span.start := by rw [hspan]
    refine ⟨⟨front, gap, cs', ?_, h.last_stop, ?_, ?_, ?_, ?_, hw', ?_⟩, ⟨?_, ?_, ?_⟩, ?_⟩
    · rw [h.text_eq, hrest]
    · rw [← hrest]
      exact h.isGap
    · rw [hstart]
      exact h.start_eq
    · rw [hspan]
      exact hstop
    · rw [hspan]
    · rw [hstart]
      exact h.arrow_le
    · exact Nat.le_refl _
    · exact Nat.le_of_eq hstart.symm
    · exact Or.inl ⟨hstart.symm, rfl⟩
    · have := Scanner.scanned_leads { s.scanner with
          rest := spelling.toList ++ s.scanner.rest
          pos := s.scanner.pos - spelling.utf8ByteSize }
        s.current.span.start s.current.afterNewline again.reader
      rw [hn] at this
      obtain ⟨-, -, -, hfaults⟩ := this
      exact hfaults

theorem rescan_place (s : Progress) (again : Rereading) :
    (s.rescan again).current.span.start = s.current.span.start ∧ (s.rescan again).last = s.last := by
  rcases rescan_eq_or s again with heq | ⟨spelling, -, -, found, v, hn, heq⟩
  · rw [heq]
    exact ⟨rfl, rfl⟩
  · rw [heq]
    have hspan : found.span.start = s.current.span.start := congrArg (·.1.span.start) hn.symm
    exact ⟨hspan, rfl⟩

/-- The number of bytes that template text takes with its marks, but for the first one. -/
def templateSize (raw : String) (isLast : Bool) : Nat :=
  raw.utf8ByteSize + if isLast then 1 else 2

theorem byteSize_of_writes_template {raw : String} {bad : Option SyntaxError} {isLast : Bool}
    {cs : List Char} (h : (Lexeme.templateText raw bad isLast).Written cs) :
    byteSize cs = 1 + templateSize raw isLast := by
  obtain ⟨-, mark, hmark, rfl⟩ := h
  rw [byteSize_cons, hmark, byteSize_append, byteSize_templateClose, templateSize,
    utf8ByteSize_eq_byteSize]

theorem Fits.isTemplateText (h : s.Fits text) {raw : String} {bad : Option SyntaxError}
    {isLast : Bool} (hl : s.current.lexeme = .templateText raw bad isLast) :
    isTemplateText raw.toList = true := by
  obtain ⟨front, gap, cs, h⟩ := h
  have hw := h.written
  rw [hl] at hw
  exact hw.1

theorem Fits.templateSize_le (h : s.Fits text) {raw : String} {bad : Option SyntaxError}
    {isLast : Bool} (hl : s.current.lexeme = .templateText raw bad isLast) :
    s.current.span.start + 1 + templateSize raw isLast ≤ s.current.span.stop := by
  obtain ⟨front, gap, cs, h⟩ := h
  have hw := h.written
  rw [hl] at hw
  have := h.start_le_stop
  rw [h.stop_eq, byteSize_of_writes_template hw]
  omega

/-- Template text behind an interpolation begins where the brace that closes this ends. -/
theorem Fits.stop_of_template (h : s.Fits text) {raw : String} {bad : Option SyntaxError}
    {isLast : Bool} (hl : (s.rescan .template).current.lexeme = .templateText raw bad isLast)
    (hs : s.current.lexeme = .punctuator "\x7d") :
    (s.rescan .template).current.span.stop = s.current.span.stop + templateSize raw isLast := by
  rcases rescan_eq_or s .template with heq | ⟨spelling, hmem, hspelling, found, v, hn, heq⟩
  · rw [heq, hs] at hl
    cases hl
  · rw [heq] at hl ⊢
    obtain ⟨front, gap, cs, h⟩ := h
    cases List.mem_singleton.mp hmem
    have hw := h.written
    rw [hspelling] at hw
    cases (hw : cs = "\x7d".toList)
    obtain ⟨hspan, cs', -, hpos, hw'⟩ := Scanner.scanned_reads hn
      fun l cs => Rereading.reader_writes hmem rfl
    rw [show found.lexeme = _ from hl] at hw'
    have hsize := byteSize_of_writes_template hw'
    have hpos : v.pos = s.scanner.pos - 1 + byteSize cs' := hpos
    have hone : byteSize "\x7d".toList = 1 := by decide
    have hstop := h.stop_eq
    have hat := h.pos_eq
    rw [hspan]
    dsimp only
    omega

/-- Every step keeps the progress in the text, goes on if anywhere, and forgets no fault. -/
theorem Fits.step (h : s.Fits text) (hs : Step s t) :
    t.Fits text ∧ NoLater s t ∧ s.scanner.faults <+: t.scanner.faults := by
  have hstay {t : Progress} (hc : t.current = s.current) (hl : t.last = s.last)
      (hr : t.scanner.rest = s.scanner.rest) (hp : t.scanner.pos = s.scanner.pos)
      (ha : ∀ start ∈ t.arrowStart, start ∈ s.arrowStart ∨ start = s.current.span.start) :
      t.Fits text ∧ NoLater s t := by
    obtain ⟨front, gap, cs, h⟩ := h
    refine ⟨⟨front, gap, cs, h.congr hc hl hr hp ha⟩, ?_⟩
    constructor <;> simp [hc, hl]
  cases hs with
  | advance strict =>
    have hf := h.advance strict
    have h1 := h.stop_le_start
    have h2 := h.start_le_stop
    have h3 := hf.stop_le_start
    have hl : (s.advance strict).last = s.current.span := rfl
    obtain ⟨cs, -, -, hfaults⟩ := Scanner.next_leads s.scanner strict
    rw [hl] at h3
    exact ⟨hf, ⟨by rw [hl]; omega, by omega, Or.inr (by rw [hl]; omega)⟩, hfaults⟩
  | addFault e =>
    obtain ⟨h1, h2⟩ := hstay (t := s.addFault e) rfl rfl rfl rfl fun _ => .inl
    exact ⟨h1, h2, List.prefix_append ..⟩
  | addStrict strict e =>
    obtain ⟨cs, hr, hp, hfaults⟩ := Scanner.Leads.addStrict s.scanner strict e
    have hrest := Scanner.rest_addStrict s.scanner strict e
    obtain ⟨h1, h2⟩ := hstay (t := s.addStrict strict e) rfl rfl hrest
      ((Scanner.Leads.addStrict s.scanner strict e).pos_eq_of_rest_eq hrest) fun _ => .inl
    exact ⟨h1, h2, hfaults⟩
  | enterModule =>
    obtain ⟨h1, h2⟩ := hstay (t := s.enterModule) rfl rfl rfl rfl fun _ => .inl
    exact ⟨h1, h2, List.prefix_append ..⟩
  | rescan again => exact h.rescan again
  | remember hsame =>
    obtain ⟨hc, hsc, hl, ha⟩ := hsame
    obtain ⟨h1, h2⟩ := hstay hc.symm hl.symm (by rw [hsc]) (by rw [hsc]) ha
    exact ⟨h1, h2, ⟨[], by rw [hsc, List.append_nil]⟩⟩

/-- The run of a parser keeps the progress in the text, goes on if anywhere, and forgets no fault. -/
theorem Fits.leads (h : s.Fits text) (hs : Leads s t) :
    t.Fits text ∧ NoLater s t ∧ s.scanner.faults <+: t.scanner.faults := by
  induction hs with
  | refl => exact ⟨h, .refl s, List.prefix_rfl⟩
  | step _ hstep ih =>
    obtain ⟨hf, hle, hfaults⟩ := ih
    obtain ⟨hf', hle', hfaults'⟩ := hf.step hstep
    exact ⟨hf', hle.trans hle', hfaults.trans hfaults'⟩

end Progress

end Adequacy
