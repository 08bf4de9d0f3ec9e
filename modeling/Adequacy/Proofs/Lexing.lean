import Adequacy.Proofs.Gaps

namespace Adequacy

/-- What closes a run of template text. -/
def templateClose (isLast : Bool) : List Char := if isLast then ['\x60'] else ['$', '\x7b']

theorem byteSize_templateClose (isLast : Bool) :
    byteSize (templateClose isLast) = if isLast then 1 else 2 := by
  cases isLast <;> decide

/-- Whether characters can stand between the marks of a template without interpolations, so that
none of them ends the template or begins an interpolation. A backslash takes the next character
with it. -/
def isTemplateText : List Char → Bool
  | [] => true
  | '\\' :: cs =>
    match cs with
    | [] => false
    | _ :: cs => isTemplateText cs
  | c :: cs => c != '\x60' && !(c == '$' && cs.head? == some '\x7b') && isTemplateText cs

/-- Whether a character neither ends a template nor begins anything in one. -/
def isInert (c : Char) : Bool := c != '\x60' && c != '$' && c != '\\'

theorem isTemplateText_append_of_inert {cs rest : List Char} (h : cs.all isInert = true) :
    isTemplateText (cs ++ rest) = isTemplateText rest := by
  induction cs with
  | nil => rfl
  | cons c cs ih =>
    simp only [List.all_cons, isInert, Bool.and_eq_true, bne_iff_ne] at h
    obtain ⟨⟨⟨htick, hdollar⟩, hslash⟩, hcs⟩ := h
    rw [List.cons_append, isTemplateText.eq_4 _ _ hslash, ih hcs]
    simp [htick, hdollar]

/-- How a lexeme is written, as far as its own text tells. -/
def Lexeme.Written : Lexeme → List Char → Prop
  | .punctuator text, cs => cs = text.toList
  | .word text, cs => text ∈ Scan.keywords → cs = text.toList
  | .string .., cs | .bigInt, cs | .regex _, cs => cs ≠ []
  | .templateText raw _ isLast, cs =>
    isTemplateText raw.toList = true ∧
      ∃ mark : Char, mark.utf8Size = 1 ∧ cs = mark :: (raw.toList ++ templateClose isLast)
  | .eof, cs => cs = []
  | _, _ => True

/-- A punctuator or a keyword is written as it is spelled. -/
theorem Lexeme.Written.eq_toList {l : Lexeme} {cs : List Char} {spelling : String}
    (h : l.Written cs)
    (hl : l = .punctuator spelling ∨ l = .word spelling ∧ spelling ∈ Scan.keywords) :
    cs = spelling.toList := by
  rcases hl with rfl | ⟨rfl, hk⟩
  · exact h
  · exact h hk

namespace Scan

variable {s t : Scanner}

theorem run_peek_bind {α : Type} (f : Option Char → Scan α) (s : Scanner) :
    (peek? >>= f).run () s = (f s.rest.head?).run () s := rfl

theorem exists_rest_of_run {α : Type} {x : Scan α} {a : Except SyntaxError α}
    (h : x.run () s = (a, t)) : ∃ cs, s.rest = cs ++ t.rest ∧ t.pos = s.pos + byteSize cs := by
  obtain ⟨cs, hrest, hpos, -⟩ := (Moving.leads_of_run h : Scanner.Leads s t)
  exact ⟨cs, hrest, hpos⟩

/-- Behind a character that is skipped, something has been read. -/
theorem ne_nil_of_skip {c : Char} {later cs : List Char} (hs : s.rest = c :: later)
    (h : Scanner.Leads s.skip t) (hr : s.rest = cs ++ t.rest) : cs ≠ [] := by
  rintro rfl
  obtain ⟨front, hfront, -⟩ := h
  rw [Scanner.rest_skip hs] at hfront
  rw [hs, hfront] at hr
  have := congrArg List.length hr
  simp at this
  omega

/-- The reader takes text whenever its answer has a property. -/
def TakesFor {α : Type} (x : Scan α) (P : α → Prop) : Prop :=
  ∀ ⦃s a t⦄, x.run () s = (.ok a, t) → P a → t.rest.length < s.rest.length

section takesFor

variable {α β : Type} {P : β → Prop}

theorem length_le_of_run {x : Scan α} {a : Except SyntaxError α} (h : x.run () s = (a, t)) :
    t.rest.length ≤ s.rest.length := by
  obtain ⟨cs, hcs, -⟩ := exists_rest_of_run h
  simp [hcs]

theorem TakesFor.of_answers {x : Scan β} (h : x.Answers (¬ P ·)) : TakesFor x P :=
  fun s a t hrun hp => absurd hp (h () s a t hrun)

theorem TakesFor.bind {x : Scan α} {f : α → Scan β} (h : ∀ a, TakesFor (f a) P) :
    TakesFor (x >>= f) P := by
  intro s b u hrun hp
  obtain ⟨a, t, hx, hf⟩ := Moving.run_bind_eq_ok_iff.mp hrun
  exact (h a hf hp).trans_le (length_le_of_run hx)

/-- Where a character is eaten, that is taken. -/
theorem TakesFor.eat_bind {c : Char} {f : Bool → Scan β} (h : TakesFor (f false) P) :
    TakesFor (eat c >>= f) P := by
  intro s b u hrun hp
  obtain ⟨found, t, hx, hf⟩ := Moving.run_bind_eq_ok_iff.mp hrun
  unfold eat at hx
  rw [run_peek_bind] at hx
  split at hx
  next hc =>
    obtain ⟨later, hs⟩ : ∃ later, s.rest = c :: later := List.head?_eq_some_iff.mp hc
    cases hx
    have := length_le_of_run hf
    rw [Scanner.rest_skip hs] at this
    rw [hs]
    exact Nat.lt_succ_of_le this
  next =>
    cases hx
    exact h hf hp

end takesFor

theorem decimalTail_isNumber : decimalTail.Answers (· = .number) := by
  unfold decimalTail
  repeat' first
    | exact .pure rfl
    | refine .bind fun _ => ?_
    | split

theorem takesFor_decimalTail : TakesFor decimalTail (· = .bigInt) :=
  .of_answers fun _ _ _ _ h => by
    rw [decimalTail_isNumber _ _ _ _ h]
    exact nofun

theorem takesFor_pure_number : TakesFor (pure Lexeme.number) (· = .bigInt) :=
  .of_answers (.pure nofun)

theorem takesFor_radixNumber (radix : Nat) : TakesFor (radixNumber radix) (· = .bigInt) :=
  .bind fun _ => .bind fun _ => .eat_bind (.bind fun _ => takesFor_pure_number)

/-- A big integer has at least the mark that makes it one. -/
theorem takesFor_number (strict : Bool) : TakesFor (number strict) (· = .bigInt) := by
  unfold number
  refine .bind fun start => .bind fun s => ?_
  split
  iterate 6 exact takesFor_radixNumber _
  · refine .bind fun _ => .bind fun _ => ?_
    dsimp only
    split
    · exact .eat_bind takesFor_decimalTail
    · split
      · exact .bind fun _ => .bind fun _ => takesFor_pure_number
      · exact .bind fun _ => takesFor_decimalTail
  · exact takesFor_decimalTail

def IsNumber (l : Lexeme) : Prop := l = .number ∨ l = .bigInt

theorem radixNumber_isNumber (radix : Nat) : (radixNumber radix).Answers IsNumber := by
  unfold radixNumber
  repeat' first
    | exact .pure (Or.inl rfl)
    | exact .pure (Or.inr rfl)
    | refine .bind fun _ => ?_
    | split

theorem number_isNumber (strict : Bool) : (number strict).Answers IsNumber := by
  have htail : decimalTail.Answers IsNumber := fun r s l t h => .inl (decimalTail_isNumber r s l t h)
  unfold number
  refine .bind fun start => .bind fun s => ?_
  split
  iterate 6 exact radixNumber_isNumber _
  · repeat' first
      | exact htail
      | exact .pure (Or.inl rfl)
      | exact .pure (Or.inr rfl)
      | refine .bind fun _ => ?_
      | split
      | dsimp only
  · exact htail

theorem skipMany_of_prefix {cs rest : List Char} (h : s.rest = cs ++ rest) :
    ∃ t, (skipMany cs.length).run () s = (.ok (), t) ∧ t.rest = rest := by
  induction cs generalizing s with
  | nil => exact ⟨s, rfl, h⟩
  | cons c cs ih =>
    obtain ⟨t, hrun, ht⟩ := @ih s.skip (Scanner.rest_skip h)
    exact ⟨t, hrun, ht⟩

/-- A fixed spelling is what is read of it. -/
theorem punctuator_writes {l : Lexeme} {cs : List Char} (h : punctuator.run () s = (.ok l, t))
    (hr : s.rest = cs ++ t.rest) : l.Written cs := by
  unfold punctuator at h
  rw [run_get_bind] at h
  dsimp only at h
  split at h
  next text hfind =>
    obtain ⟨rest, hrest⟩ : text.toList <+: s.rest := by simpa using List.find?_some hfind
    obtain ⟨u, hrun, hu⟩ := skipMany_of_prefix hrest.symm
    rw [String.length_toList] at hrun
    rw [Moving.run_bind_of_run hrun] at h
    cases h
    rw [← hrest, hu] at hr
    exact (List.append_cancel_right hr).symm
  next c rest => cases h
  next hs =>
    cases h
    rw [hs] at hr
    exact (List.append_eq_nil_iff.mp hr.symm).1

section inert

variable {α β : Type}

/-- A reader takes inert characters only, also where it gives up. -/
def TakesInert (x : Scan α) (s : Scanner) : Prop :=
  ∃ cs, s.rest = cs ++ (x.run () s).2.rest ∧ cs.all isInert = true

theorem TakesInert.pure (a : α) : TakesInert (Pure.pure a) s := ⟨[], rfl, rfl⟩

theorem TakesInert.stopFrom (start : Nat) (fault : SyntaxFault) :
    TakesInert (Scan.stopFrom start fault : Scan α) s := ⟨[], rfl, rfl⟩

theorem TakesInert.bind {x : Scan α} {f : α → Scan β} (hx : TakesInert x s)
    (hf : ∀ a t, TakesInert (f a) t) : TakesInert (x >>= f) s := by
  obtain ⟨as, has, hin⟩ := hx
  unfold TakesInert
  match hrun : x.run () s with
  | (.ok a, t) =>
    rw [Moving.run_bind_of_run hrun]
    rw [hrun] at has
    obtain ⟨bs, hbs, hin'⟩ := hf a t
    exact ⟨as ++ bs, by rw [has, hbs, List.append_assoc], by simp [hin, hin']⟩
  | (.error e, t) =>
    rw [Moving.run_bind_of_error hrun]
    rw [hrun] at has
    exact ⟨as, has, hin⟩

theorem TakesInert.peek_bind {f : Option Char → Scan β} (hf : TakesInert (f s.rest.head?) s) :
    TakesInert (peek? >>= f) s := hf

theorem TakesInert.skip_bind {f : Unit → Scan β} {c : Char} (hc : s.rest.head? = some c)
    (hi : isInert c = true) (hf : TakesInert (f ()) s.skip) : TakesInert (skip >>= f) s := by
  obtain ⟨later, hs⟩ := List.head?_eq_some_iff.mp hc
  obtain ⟨cs, hcs, hin⟩ := hf
  rw [Scanner.rest_skip hs] at hcs
  exact ⟨c :: cs, by rw [hs, hcs]; rfl, by simp [hi, hin]⟩

theorem takesInert_eat {c : Char} (hi : isInert c = true) : TakesInert (eat c) s := by
  unfold eat
  refine .peek_bind ?_
  split
  next hc => exact .skip_bind hc hi (.pure true)
  next => exact .pure false

theorem isInert_of_digitValue? {radix v : Nat} {c : Char} (h : digitValue? radix c = some v) :
    isInert c = true := by
  by_contra hi
  simp only [isInert, Bool.and_eq_true, bne_iff_ne, not_and_or, not_not] at hi
  obtain (rfl | rfl) | rfl := hi <;> simp [digitValue?] at h

theorem takesInert_hexDigits {count fuel : Nat} {read : List Nat} :
    TakesInert (hexDigits count fuel read) s := by
  induction fuel generalizing read s with
  | zero => exact .pure _
  | succ fuel ih =>
    unfold hexDigits
    refine .peek_bind ?_
    split
    next v hv =>
      obtain ⟨c, hc, hv⟩ := Option.bind_eq_some_iff.mp hv
      refine .skip_bind hc (isInert_of_digitValue? hv) ?_
      split
      · exact .pure _
      · exact ih
    next => exact .pure _

theorem takesInert_unicodeEscape {start : Option Nat} : TakesInert (unicodeEscape start) s := by
  unfold unicodeEscape
  repeat' first
    | exact .pure _
    | exact .stopFrom ..
    | exact takesInert_eat (by decide)
    | exact takesInert_hexDigits
    | refine .bind ?_ fun _ _ => ?_
    | split

/-- An escape in a template is a backslash with the character that it takes, and inert characters
behind them. -/
theorem escaped_reads {a : Except SyntaxError (Option Char)} {t : Scanner} {later : List Char}
    (h : (escaped false true).run () s = (a, t)) (hs : s.rest = '\\' :: later) :
    t.rest = [] ∨ ∃ c cs, later = c :: (cs ++ t.rest) ∧ cs.all isInert = true := by
  have hskip := Scanner.rest_skip hs
  unfold escaped at h
  rw [run_here_bind, run_skip_bind, run_peek_bind, hskip] at h
  cases later with
  | nil =>
    cases h
    exact .inl hskip
  | cons c later =>
    refine .inr ⟨c, ?_⟩
    dsimp only [List.head?_cons] at h
    -- Whatever the character is, it is skipped first.
    have hread {x : Unit → Scan (Option Char)} (hx : (skip >>= x).run () s.skip = (a, t))
        (hi : TakesInert (x ()) s.skip.skip) :
        ∃ cs, c :: later = c :: (cs ++ t.rest) ∧ cs.all isInert = true := by
      obtain ⟨cs, hcs, hin⟩ := hi
      rw [run_skip_bind] at hx
      rw [Scanner.rest_skip hskip, hx] at hcs
      exact ⟨cs, by rw [hcs], hin⟩
    split at h
    next heq => cases heq
    iterate 6 exact hread h (.pure _)
    next => exact hread h (.bind (takesInert_eat (by decide)) fun _ _ => .pure _)
    next =>
      refine hread h (.bind takesInert_hexDigits fun number t => ?_)
      split
      · exact .pure _
      · exact .stopFrom ..
    next => exact hread h (.bind takesInert_unicodeEscape fun _ _ => .pure _)
    next =>
      refine hread h ?_
      split
      · exact .pure _
      · split
        · exact .pure _
        · refine .bind (.pure _) fun next t => ?_
          split
          · exact .pure _
          · exact .stopFrom ..

end inert

/-- An escape is read to the same place whether its fault is caught or not. -/
theorem exists_run_escaped {bad bad' : Option SyntaxError}
    (h : (tryCatch (do let _ ← escaped false true; pure bad) fun e => pure (bad.or (some e))).run () s
      = (.ok bad', t)) : ∃ a, (escaped false true).run () s = (a, t) := by
  rcases Moving.run_tryCatch_eq_ok_iff.mp h with h | ⟨e, u, hu, h⟩
  · obtain ⟨c, u, hu, h⟩ := Moving.run_bind_eq_ok_iff.mp h
    cases h
    exact ⟨.ok c, hu⟩
  · cases h
    match hrun : (escaped false true).run () s with
    | (.ok c, v) =>
      rw [Moving.run_bind_of_run hrun] at hu
      cases hu
    | (.error e', v) =>
      rw [Moving.run_bind_of_error hrun] at hu
      cases hu
      exact ⟨.error e, rfl⟩

theorem templateBody_reads {start fuel : Nat} {bad bad' : Option SyntaxError} {isLast : Bool}
    (h : (templateBody start fuel bad).run () s = (.ok (bad', isLast), t)) :
    ∃ text, isTemplateText text = true ∧ s.rest = text ++ (templateClose isLast ++ t.rest) := by
  induction fuel generalizing bad s with
  | zero => cases h
  | succ fuel ih =>
    unfold templateBody at h
    rw [run_get_bind] at h
    split at h
    next => cases h
    next later hs =>
      cases h
      exact ⟨[], rfl, by rw [hs, Scanner.rest_skip hs]; rfl⟩
    next later hs =>
      cases h
      exact ⟨[], rfl, by rw [hs, Scanner.rest_skip (Scanner.rest_skip hs)]; rfl⟩
    next later hs =>
      obtain ⟨bad'', u, hu, h⟩ := Moving.run_bind_eq_ok_iff.mp h
      obtain ⟨text, ht, hrest⟩ := ih h
      obtain ⟨a, ha⟩ := exists_run_escaped hu
      rcases escaped_reads ha hs with hnil | ⟨c, cs, rfl, hin⟩
      · -- Behind a backslash that ends the text, nothing closes the template.
        rw [hnil] at hrest
        cases isLast <;> simp [templateClose] at hrest
      · refine ⟨'\\' :: c :: (cs ++ text), ?_, by rw [hs, hrest]; simp⟩
        exact (isTemplateText_append_of_inert hin).trans ht
    next c later htick hopen hslash hs =>
      obtain ⟨text, ht, hrest⟩ := ih h
      rw [Scanner.rest_skip hs] at hrest
      refine ⟨c :: text, ?_, by rw [hs, hrest]; rfl⟩
      have hplain : ¬ (c = '$' ∧ text.head? = some '\x7b') := fun ⟨hdollar, hbrace⟩ => by
        obtain ⟨tail, rfl⟩ := List.head?_eq_some_iff.mp hbrace
        exact hopen _ hdollar hrest
      rw [isTemplateText.eq_4 _ _ hslash, ht]
      simpa [show c ≠ '\x60' from htick, Decidable.imp_iff_not_or] using hplain

/-- Template text is written between its marks. -/
theorem template_writes {l : Lexeme} {c : Char} {later cs : List Char}
    (h : template.run () s = (.ok l, t)) (hs : s.rest = c :: later) (hc : c.utf8Size = 1)
    (hr : s.rest = cs ++ t.rest) : l.Written cs := by
  have hskip := Scanner.rest_skip hs
  unfold template at h
  rw [run_here_bind, run_skip_bind, run_get_bind] at h
  dsimp only at h
  rw [run_here_bind, run_remaining_bind] at h
  obtain ⟨⟨bad, isLast⟩, u, hu, h⟩ := Moving.run_bind_eq_ok_iff.mp h
  cases h
  obtain ⟨text, ht, htext⟩ := templateBody_reads hu
  have hpos : t.pos = s.skip.pos + byteSize (text ++ templateClose isLast) :=
    (Moving.leads_of_run hu : Scanner.Leads s.skip t).pos_eq (by rw [htext, List.append_assoc])
  have hsize : t.pos - s.skip.pos - (if isLast then 1 else 2) = byteSize text := by
    rw [hpos, byteSize_append, byteSize_templateClose]
    omega
  have hraw : (String.ofList (takeBytes (t.pos - s.skip.pos - (if isLast then 1 else 2))
      s.skip.rest)).toList = text := by
    rw [hsize, htext, takeBytes_byteSize_append, String.toList_ofList]
  refine ⟨hraw ▸ ht, c, hc, ?_⟩
  rw [hraw]
  rw [hs, ← hskip, htext] at hr
  exact (List.append_cancel_right (by simpa using hr)).symm

/-- A word without escapes is what is read of it. -/
theorem wordBody_reads {fuel : Nat} {read cs : List Char} {hasEscape : Bool}
    (h : (wordBody fuel read hasEscape).run () s = (.ok (cs, false), t)) :
    hasEscape = false ∧ ∃ text, s.rest = text ++ t.rest ∧ cs = read.reverse ++ text := by
  induction fuel generalizing read hasEscape s with
  | zero =>
    cases h
    exact ⟨rfl, [], rfl, by simp⟩
  | succ fuel ih =>
    unfold wordBody at h
    rw [run_peek_bind] at h
    split at h
    next =>
      rw [run_here_bind, run_skip_bind] at h
      obtain ⟨eaten, u, -, h⟩ := Moving.run_bind_eq_ok_iff.mp h
      split at h
      next => cases h
      next =>
        obtain ⟨n, v, -, h⟩ := Moving.run_bind_eq_ok_iff.mp h
        dsimp only at h
        split at h
        · obtain ⟨-, w, -, h⟩ := Moving.run_bind_eq_ok_iff.mp h
          exact Bool.noConfusion (ih h).1
        · exact Bool.noConfusion (ih h).1
    next c hne hc =>
      obtain ⟨later, hs⟩ : ∃ later, s.rest = c :: later := List.head?_eq_some_iff.mp hc
      split at h
      next =>
        rw [run_skip_bind] at h
        obtain ⟨he, text, ht, rfl⟩ := ih h
        rw [Scanner.rest_skip hs] at ht
        exact ⟨he, c :: text, by rw [hs, ht]; rfl, by simp⟩
      next =>
        cases h
        exact ⟨rfl, [], rfl, by simp⟩
    next hc =>
      cases h
      exact ⟨rfl, [], rfl, by simp⟩

/-- A keyword is written without escapes. -/
theorem word_writes {l : Lexeme} {cs : List Char} (h : word.run () s = (.ok l, t))
    (hr : s.rest = cs ++ t.rest) : l.Written cs := by
  unfold word at h
  rw [run_here_bind, run_remaining_bind] at h
  obtain ⟨⟨text, hasEscape⟩, u, hu, h⟩ := Moving.run_bind_eq_ok_iff.mp h
  dsimp only at h
  split at h
  next => cases h
  next hkeyword =>
    cases h
    intro hmem
    cases hasEscape with
    | true => exact (hkeyword ⟨rfl, hmem⟩).elim
    | false =>
      obtain ⟨-, text', ht, rfl⟩ := wordBody_reads hu
      rw [ht] at hr
      simpa using (List.append_cancel_right hr).symm

/-- A number is written as it is read. -/
theorem number_writes {strict : Bool} {l : Lexeme} {cs : List Char}
    (h : (number strict).run () s = (.ok l, t)) (hr : s.rest = cs ++ t.rest) : l.Written cs := by
  rcases number_isNumber strict () s l t h with rfl | rfl
  · exact trivial
  · rintro rfl
    have := takesFor_number strict h rfl
    rw [hr] at this
    exact absurd this (Nat.lt_irrefl _)

/-- A lexeme is written as it is read. -/
theorem lexeme_writes {strict : Bool} {l : Lexeme} {cs : List Char}
    (h : (lexeme strict).run () s = (.ok l, t)) (hr : s.rest = cs ++ t.rest) : l.Written cs := by
  unfold lexeme at h
  rw [run_get_bind] at h
  split at h
  next hs =>
    cases h
    rw [hs] at hr
    exact (List.append_eq_nil_iff.mp hr.symm).1
  next =>
    split at h
    · cases decimalTail_isNumber () s l t h
      exact trivial
    · exact punctuator_writes h hr
  next hs => exact template_writes h hs (by decide) hr
  next c later _ _ hs =>
    split at h
    next =>
      rw [run_here_bind, run_get_bind] at h
      dsimp only at h
      rw [run_skip_bind, run_remaining_bind] at h
      obtain ⟨value, u, hu, h⟩ := Moving.run_bind_eq_ok_iff.mp h
      cases h
      exact ne_nil_of_skip hs (Moving.leads_of_run hu) hr
    next =>
      split at h
      · exact number_writes h hr
      · split at h
        · exact word_writes h hr
        · exact punctuator_writes h hr

theorem regex_writes {l : Lexeme} {c : Char} {later cs : List Char}
    (h : regex.run () s = (.ok l, t)) (hs : s.rest = c :: later) (hr : s.rest = cs ++ t.rest) :
    l.Written cs := by
  have hanswers : regex.Answers fun l => ∃ flags, l = .regex flags := by
    unfold regex
    repeat' first
      | exact .pure ⟨_, rfl⟩
      | refine .bind fun _ => ?_
      | split
  obtain ⟨flags, rfl⟩ := hanswers () s l t h
  unfold regex at h
  rw [run_here_bind, run_skip_bind] at h
  exact ne_nil_of_skip hs (Moving.leads_of_run h) hr

end Scan

namespace Scanner

/-- What a lexeme takes from the text is its own text. -/
theorem scanned_reads {s t : Scanner} {start : Nat} {afterNewline : Bool} {reader : Scan Lexeme}
    {found : Scanned} (h : s.scanned start afterNewline reader = (found, t))
    (hw : ∀ l cs, reader.run () s = (.ok l, t) → s.rest = cs ++ t.rest → l.Written cs) :
    found.span = ⟨start, t.pos⟩ ∧
      ∃ cs, s.rest = cs ++ t.rest ∧ t.pos = s.pos + byteSize cs ∧ found.lexeme.Written cs := by
  unfold scanned at h
  rcases hrun : reader.run () s with ⟨result, u⟩
  rw [hrun] at h hw
  cases h
  obtain ⟨cs, hrest, hpos⟩ := Scan.exists_rest_of_run hrun
  refine ⟨rfl, cs, hrest, hpos, ?_⟩
  cases result with
  | error e => exact trivial
  | ok l => exact hw l cs rfl hrest

/-- The next lexeme stands behind a gap. Its span may take in the comments of the old form that are
last in the gap. -/
theorem next_reads {s t : Scanner} {strict : Bool} {found : Scanned}
    (h : s.next strict = (found, t)) : ∃ gap cs, s.rest = gap ++ (cs ++ t.rest) ∧
      Gap gap (cs ++ t.rest) ∧ t.pos = s.pos + byteSize gap + byteSize cs ∧
      found.span.stop = t.pos ∧ found.lexeme.Written cs ∧
      (found.span.start = s.pos + byteSize gap ∨ Scan.OldStart s.pos gap found.span.start) := by
  obtain ⟨blanks, u, gap, hrun, hrest, hgap, hold⟩ :=
    Scan.skipBlanks_reads { newline := s.pos == 0 } (Nat.lt_add_one s.rest.length)
  simp only [next, hrun] at h
  have hpos : u.pos = s.pos + byteSize gap :=
    (Moving.leads_of_run hrun : Leads s u).pos_eq hrest
  obtain ⟨hspan, cs, hcs, hpos', hw⟩ := scanned_reads h fun l cs => Scan.lexeme_writes
  refine ⟨gap, cs, by rw [hrest, hcs], by rw [← hcs]; exact hgap, by omega, by rw [hspan], hw, ?_⟩
  rw [hspan]
  cases hl : blanks.legacy with
  | none => exact Or.inl hpos
  | some start => exact Or.inr ((hold start hl).resolve_left nofun)

end Scanner

end Adequacy
