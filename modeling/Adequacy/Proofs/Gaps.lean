import Adequacy.Lexeme
import Adequacy.Proofs.TextSlice
import Adequacy.Token
import Mathlib.Data.List.TakeWhile

namespace Adequacy

/-- Whether a text begins with a blank or a comment of today. -/
def startsBlank : List Char → Bool
  | '/' :: '/' :: _ | '/' :: '*' :: _ => true
  | c :: _ => Scan.isLineEnd c || Scan.isSpace c
  | [] => false

/-- Whether a text ends where a line does. -/
def EndsLine (text rest : List Char) : Prop :=
  (∀ c ∈ text, Scan.isLineEnd c = false) ∧ ∀ c ∈ rest.head?, Scan.isLineEnd c = true

/-- The marks of comments that only old programs use. -/
def oldMarks : List String := ["<!--", "-->", "#!"]

/-- A text that is skipped in front of `rest`, which does not go on with more of the kind. -/
inductive Gap : List Char → List Char → Prop where
  | nil {rest : List Char} (h : startsBlank rest = false) : Gap [] rest
  | blank {c : Char} {gap rest : List Char} (hc : Scan.isLineEnd c || Scan.isSpace c)
      (h : Gap gap rest) : Gap (c :: gap) rest
  | line {text gap rest : List Char} (ht : EndsLine text (gap ++ rest)) (h : Gap gap rest) :
      Gap ('/' :: '/' :: (text ++ gap)) rest
  | block {text gap rest : List Char}
      (ht : Token.blockEnd? (text ++ (gap ++ rest)) = some text.length) (h : Gap gap rest) :
      Gap ('/' :: '*' :: (text ++ gap)) rest
  | openBlock {text : List Char} (ht : Token.blockEnd? text = none) : Gap ('/' :: '*' :: text) []
  | old {mark : String} {text gap rest : List Char} (hm : mark ∈ oldMarks)
      (ht : EndsLine text (gap ++ rest)) (h : Gap gap rest) :
      Gap (mark.toList ++ (text ++ gap)) rest

namespace Gap

theorem append {as bs rest : List Char} (ha : Gap as (bs ++ rest)) (hb : Gap bs rest) :
    Gap (as ++ bs) rest := by
  generalize hcs : bs ++ rest = cs at ha
  induction ha with
  | nil => exact hb
  | blank hc _ ih => exact .blank hc (ih hcs)
  | @line text gap _ ht _ ih =>
    have := @line text (gap ++ bs) rest (by rw [List.append_assoc, hcs]; exact ht) (ih hcs)
    simpa using this
  | @block text gap _ ht _ ih =>
    have := @block text (gap ++ bs) rest (by rw [List.append_assoc gap, hcs]; exact ht) (ih hcs)
    simpa using this
  | openBlock ht =>
    obtain ⟨rfl, rfl⟩ := List.append_eq_nil_iff.mp hcs
    simpa using openBlock ht
  | @old mark text gap _ hm ht _ ih =>
    have := @old mark text (gap ++ bs) rest hm (by rw [List.append_assoc, hcs]; exact ht) (ih hcs)
    simpa using this

end Gap

theorem endsLine_takeWhile (cs : List Char) :
    EndsLine (cs.takeWhile (!Scan.isLineEnd ·)) (cs.dropWhile (!Scan.isLineEnd ·)) := by
  constructor
  · intro c hc
    simpa using List.mem_takeWhile_imp hc
  · intro c hc
    have := List.head?_dropWhile_not (!Scan.isLineEnd ·) cs
    rw [Option.mem_def] at hc
    rw [hc] at this
    simpa using this

namespace Scanner

/-- What a reader takes from the text is known from what it leaves. -/
theorem Leads.pos_eq {s t : Scanner} {read : List Char} (h : Leads s t)
    (hr : s.rest = read ++ t.rest) : t.pos = s.pos + byteSize read := by
  obtain ⟨read', hr', hpos, -⟩ := h
  rw [hr] at hr'
  rw [hpos, List.append_cancel_right hr']

theorem Leads.length_le {s t : Scanner} (h : Leads s t) : t.rest.length ≤ s.rest.length := by
  obtain ⟨read, hr, -⟩ := h
  rw [hr, List.length_append]
  omega

theorem Leads.pos_eq_of_rest_eq {s t : Scanner} (h : Leads s t) (hr : t.rest = s.rest) :
    t.pos = s.pos := h.pos_eq (show s.rest = [] ++ t.rest from hr.symm)

theorem rest_addStrict (s : Scanner) (strict : Bool) (e : SyntaxError) :
    (s.addStrict strict e).rest = s.rest := by
  unfold addStrict addFault
  split <;> rfl

theorem rest_skip {s : Scanner} {c : Char} {cs : List Char} (h : s.rest = c :: cs) :
    s.skip.rest = cs := by
  unfold skip
  rw [h]

end Scanner

namespace Scan

theorem run_get_bind {α : Type} (f : Scanner → Scan α) (s : Scanner) :
    (get >>= f).run () s = (f s).run () s := rfl

theorem run_here_bind {α : Type} (f : Nat → Scan α) (s : Scanner) :
    (here >>= f).run () s = (f s.pos).run () s := rfl

theorem run_remaining_bind {α : Type} (f : Nat → Scan α) (s : Scanner) :
    (remaining >>= f).run () s = (f s.rest.length).run () s := rfl

theorem run_skip_bind {α : Type} (f : Unit → Scan α) (s : Scanner) :
    (skip >>= f).run () s = (f ()).run () s.skip := rfl

theorem run_skipTwo_bind {α : Type} (f : Unit → Scan α) (s : Scanner) :
    (skipMany 2 >>= f).run () s = (f ()).run () s.skip.skip := rfl

theorem run_skipLine_bind {α : Type} (f : Unit → Scan α) (s : Scanner) :
    (skipLine >>= f).run () s = (f ()).run () (s.skipWhile (!isLineEnd ·)) := rfl

theorem run_noteStrict_bind {α : Type} {strict : Bool} {start : Nat} {fault : SyntaxFault}
    (f : Unit → Scan α) (s : Scanner) : (noteStrict strict start fault >>= f).run () s =
      (f ()).run () (s.addStrict strict ⟨fault, ⟨start, s.pos⟩⟩) := rfl

/-- Behind the mark that it begins with, a line comment is skipped up to the end of its line. -/
theorem rest_skipLine {s : Scanner} {m later : List Char} (h : s.rest = m ++ later)
    (hm : m.all (!isLineEnd ·) = true) :
    (s.skipWhile (!isLineEnd ·)).rest = later.dropWhile (!isLineEnd ·) ∧
      (s.skipWhile (!isLineEnd ·)).rest.length ≤ later.length := by
  have hrest : (s.skipWhile (!isLineEnd ·)).rest = later.dropWhile (!isLineEnd ·) := by
    rw [Scanner.skipWhile, h]
    exact List.dropWhile_append_of_pos (List.all_eq_true.mp hm)
  exact ⟨hrest, hrest ▸ (List.dropWhile_sublist _).length_le⟩

/-- A block comment is skipped to its first end, or to that of the text. -/
theorem skipBlock_reads {fuel : Nat} (newline : Bool) {s : Scanner} (hf : s.rest.length < fuel) :
    ∃ newline' t, (skipBlock fuel newline).run () s = (.ok newline', t) ∧
      ((∃ text, s.rest = text ++ t.rest ∧ Token.blockEnd? s.rest = some text.length) ∨
        Token.blockEnd? s.rest = none ∧ t.rest = []) := by
  induction fuel generalizing newline s with
  | zero => omega
  | succ fuel ih =>
    unfold skipBlock
    rw [run_get_bind]
    split
    next h => exact ⟨_, _, rfl, Or.inr ⟨by rw [h]; rfl, h⟩⟩
    next later h =>
      have hend : s.skip.skip.rest = later := Scanner.rest_skip (Scanner.rest_skip h)
      exact ⟨_, _, rfl, Or.inl ⟨['*', '/'], by rw [hend, h]; rfl, by rw [h]; rfl⟩⟩
    next c later hne h =>
      have hrest := Scanner.rest_skip h
      rw [run_skip_bind, h]
      obtain ⟨newline', t, hrun, ht⟩ := @ih (newline || isLineEnd c) s.skip
        (by rw [hrest]; rw [h, List.length_cons] at hf; omega)
      have hend : Token.blockEnd? (c :: later) = (Token.blockEnd? later).map (· + 1) := by
        rw [Token.blockEnd?]
        rintro rest rfl rfl
        exact hne rest rfl rfl
      refine ⟨newline', t, hrun, ?_⟩
      rw [hrest] at ht
      rw [hend]
      rcases ht with ⟨text, h1, h2⟩ | ⟨h1, h2⟩
      · exact Or.inl ⟨c :: text, by rw [h1]; rfl, by rw [h2]; rfl⟩
      · exact Or.inr ⟨by rw [h1]; rfl, h2⟩

/-- All blanks and comments of today are skipped. -/
theorem skipPlain_reads {fuel : Nat} (read : Blanks) {s : Scanner} (hf : s.rest.length < fuel) :
    ∃ read' t gap, (skipPlain fuel read).run () s = (.ok read', t) ∧ s.rest = gap ++ t.rest ∧
      Gap gap t.rest ∧ read'.legacy = read.legacy := by
  induction fuel generalizing read s with
  | zero => omega
  | succ fuel ih =>
    unfold skipPlain
    rw [run_get_bind]
    split
    next later h =>
      rw [run_skipLine_bind]
      have hline := endsLine_takeWhile later
      obtain ⟨hskip, hlen⟩ := rest_skipLine (m := ['/', '/']) h rfl
      obtain ⟨read', t, gap, hrun, hrest, hgap, hlegacy⟩ := @ih read (s.skipWhile (!isLineEnd ·))
        (by rw [h, List.length_cons, List.length_cons] at hf; omega)
      rw [hskip] at hrest
      refine ⟨read', t, _, hrun, ?_, .line (by rw [← hrest]; exact hline) hgap, hlegacy⟩
      simp [h, ← hrest]
    next later h =>
      have hskip : s.skip.skip.rest = later := Scanner.rest_skip (Scanner.rest_skip h)
      rw [run_skipTwo_bind, run_remaining_bind, hskip]
      obtain ⟨newline, u, hblock, hu⟩ :=
        @skipBlock_reads (later.length + 1) read.newline s.skip.skip (by rw [hskip]; omega)
      rw [Moving.run_bind_of_run hblock]
      have hlen := Scanner.Leads.length_le (Moving.leads_of_run hblock)
      obtain ⟨read', t, gap, hrun, hrest, hgap, hlegacy⟩ := @ih { read with newline := newline } u
        (by rw [hskip] at hlen; rw [h, List.length_cons, List.length_cons] at hf; omega)
      refine ⟨read', t, ?_⟩
      rw [hskip] at hu
      rcases hu with ⟨text, h1, h2⟩ | ⟨h1, h2⟩
      · rw [h1, hrest] at h2
        exact ⟨_, hrun, by rw [h, h1, hrest]; simp, .block h2 hgap, hlegacy⟩
      · rw [h2] at hrest
        obtain ⟨rfl, ht⟩ := List.append_eq_nil_iff.mp hrest.symm
        rw [ht] at hgap ⊢
        exact ⟨'/' :: '*' :: later, hrun, by rw [h]; simp, .openBlock h1, hlegacy⟩
    next c later h1 h2 h =>
      have hskip := Scanner.rest_skip h
      have hnext (read : Blanks) := @ih read s.skip
        (by rw [hskip]; rw [h, List.length_cons] at hf; omega)
      split
      next hc =>
        obtain ⟨read', t, gap, hrun, hrest, hgap, hlegacy⟩ := hnext { read with newline := true }
        refine ⟨read', t, c :: gap, hrun, ?_, .blank (by simp [hc]) hgap, hlegacy⟩
        rw [h, ← hskip, hrest]
        rfl
      next hc =>
        split
        next hs =>
          obtain ⟨read', t, gap, hrun, hrest, hgap, hlegacy⟩ := hnext read
          refine ⟨read', t, c :: gap, hrun, ?_, .blank (by simp [hs]) hgap, hlegacy⟩
          rw [h, ← hskip, hrest]
          rfl
        next hs =>
          refine ⟨read, s, [], rfl, rfl, .nil ?_, rfl⟩
          rw [h]
          unfold startsBlank
          split
          next heq => cases heq; exact (h1 _ rfl rfl).elim
          next heq => cases heq; exact (h2 _ rfl rfl).elim
          next heq => cases heq; simp [hc, hs]
          next heq => cases heq
    next h => exact ⟨read, s, [], rfl, rfl, .nil (by rw [h]; rfl), rfl⟩

/-- Where a comment of the old form begins in a gap behind an offset. -/
def OldStart (pos : Nat) (gap : List Char) (start : Nat) : Prop :=
  ∃ as mark bs, gap = as ++ (mark ++ bs) ∧ pos + byteSize as = start ∧
    (mark = "<!--".toList ∨ mark = "-->".toList)

theorem OldStart.append {pos start : Nat} {as bs : List Char}
    (h : OldStart (pos + byteSize as) bs start) : OldStart pos (as ++ bs) start := by
  obtain ⟨front, mark, back, rfl, rfl, hm⟩ := h
  exact ⟨as ++ front, mark, back, by simp, by rw [byteSize_append, Nat.add_assoc], hm⟩

/-- A comment of the old form in front of a gap is part of a greater gap. -/
theorem exists_old_gap {s t u : Scanner} {mark : String} {as text bs : List Char}
    {legacy legacy' : Option Nat} (hm : mark = "<!--" ∨ mark = "-->") (hl : Scanner.Leads s t)
    (hs : s.rest = as ++ (mark.toList ++ (text ++ t.rest)))
    (has : Gap as (mark.toList ++ (text ++ t.rest))) (ht : EndsLine text t.rest)
    (hu : t.rest = bs ++ u.rest) (hbs : Gap bs u.rest)
    (hlegacy : ∀ start, legacy' = some start →
      legacy.or (some (s.pos + byteSize as)) = some start ∨ OldStart t.pos bs start) :
    ∃ gap, s.rest = gap ++ u.rest ∧ Gap gap u.rest ∧
      ∀ start, legacy' = some start → legacy = some start ∨ OldStart s.pos gap start := by
  have hmem : mark ∈ oldMarks := by rcases hm with rfl | rfl <;> decide
  refine ⟨as ++ (mark.toList ++ (text ++ bs)), ?_, ?_, ?_⟩
  · rw [hs, hu]
    simp
  · refine Gap.append ?_ (.old hmem (by rw [← hu]; exact ht) hbs)
    rw [hu] at has
    simpa using has
  · intro start h
    rcases hlegacy start h with h | h
    · cases legacy with
      | some p => exact Or.inl h
      | none =>
        cases h
        exact Or.inr ⟨as, mark.toList, text ++ bs, rfl, rfl,
          by rcases hm with rfl | rfl <;> simp⟩
    · have hpos := hl.pos_eq (show s.rest = (as ++ (mark.toList ++ text)) ++ t.rest by
        rw [hs]; simp)
      rw [hpos] at h
      have := h.append
      exact Or.inr (by simpa using this)

/-- All blanks and comments are skipped. -/
theorem skipBlanks_reads {fuel : Nat} (read : Blanks) {s : Scanner} (hf : s.rest.length < fuel) :
    ∃ read' t gap, (skipBlanks fuel read).run () s = (.ok read', t) ∧ s.rest = gap ++ t.rest ∧
      Gap gap t.rest ∧ ∀ start, read'.legacy = some start →
        read.legacy = some start ∨ OldStart s.pos gap start := by
  induction fuel generalizing read s with
  | zero => omega
  | succ fuel ih =>
    unfold skipBlanks
    obtain ⟨read₁, s₁, gap₁, hrun₁, hrest₁, hgap₁, hlegacy₁⟩ := skipPlain_reads read hf
    have hl₁ : Scanner.Leads s s₁ := Moving.leads_of_run hrun₁
    have hpos₁ := hl₁.pos_eq hrest₁
    have hlen₁ := hl₁.length_le
    rw [Moving.run_bind_of_run hrun₁, run_here_bind, run_get_bind]
    split
    next later h =>
      rw [run_skipLine_bind]
      let u := s₁.skipWhile (!isLineEnd ·)
      obtain ⟨hu, hlen⟩ :
          u.rest = later.dropWhile (!isLineEnd ·) ∧ u.rest.length ≤ later.length :=
        rest_skipLine (m := ['<', '!', '-', '-']) h rfl
      rw [h] at hlen₁
      simp only [List.length_cons] at hlen₁
      obtain ⟨read₂, s₂, gap₂, hrun₂, hrest₂, hgap₂, hlegacy₂⟩ :=
        @skipPlain_reads (fuel + 1) read₁ u (by omega)
      have hl₂ : Scanner.Leads u s₂ := Moving.leads_of_run hrun₂
      have hlen₂ := hl₂.length_le
      rw [Moving.run_bind_of_run hrun₂, run_noteStrict_bind]
      have hl₃ := hl₂.trans (.addStrict s₂ false ⟨.legacyComment, ⟨s₁.pos, s₂.pos⟩⟩)
      have hrest₃ := Scanner.rest_addStrict s₂ false ⟨.legacyComment, ⟨s₁.pos, s₂.pos⟩⟩
      obtain ⟨read', t, gap₃, hrun, hrest, hgap, hlegacy⟩ := ih
        { read₂ with legacy := read₂.legacy.or (some s₁.pos) } (by rw [hrest₃]; omega)
      have hpos₃ := hl₃.pos_eq (show u.rest = gap₂ ++ _ by rw [hrest₃, hrest₂])
      rw [hpos₃, hlegacy₂, hlegacy₁, hpos₁] at hlegacy
      rw [hrest₃] at hrest
      have hs₁ : s₁.rest = "<!--".toList ++ (later.takeWhile (!isLineEnd ·) ++ u.rest) := by
        simp [h, hu]
      obtain ⟨gap, h1, h2, h3⟩ := exists_old_gap (Or.inl rfl) (hl₁.trans (.skipWhile _ s₁))
        (by rw [hrest₁, hs₁]) (by rw [← hs₁]; exact hgap₁)
        (by rw [hu]; exact endsLine_takeWhile later)
        (show u.rest = (gap₂ ++ gap₃) ++ t.rest by rw [hrest₂, hrest, List.append_assoc])
        (Gap.append (by rw [← hrest]; exact hgap₂) hgap)
        (fun start hh => (hlegacy start hh).imp id OldStart.append)
      exact ⟨read', t, gap, hrun, h1, h2, h3⟩
    next later h =>
      split
      next =>
        let v := s₁.skip.skip.addStrict false ⟨.legacyComment, ⟨s₁.pos, s₁.skip.skip.pos⟩⟩
        have hv : v.rest = '>' :: later :=
          (Scanner.rest_addStrict ..).trans (Scanner.rest_skip (Scanner.rest_skip h))
        let u := v.skipWhile (!isLineEnd ·)
        obtain ⟨hu, hlen⟩ :
            u.rest = later.dropWhile (!isLineEnd ·) ∧ u.rest.length ≤ later.length :=
          rest_skipLine (m := ['>']) hv rfl
        rw [h] at hlen₁
        simp only [List.length_cons] at hlen₁
        rw [run_skipTwo_bind, run_noteStrict_bind, run_skipLine_bind]
        obtain ⟨read', t, gap₃, hrun, hrest, hgap, hlegacy⟩ := @ih
          { read₁ with legacy := read₁.legacy.or (some s₁.pos) } u (by omega)
        rw [hlegacy₁, hpos₁] at hlegacy
        have hs₁ : s₁.rest = "-->".toList ++ (later.takeWhile (!isLineEnd ·) ++ u.rest) := by
          simp [h, hu]
        have hl : Scanner.Leads s₁ u :=
          (((Scanner.Leads.skip s₁).trans (.skip _)).trans (.addStrict ..)).trans (.skipWhile ..)
        obtain ⟨gap, h1, h2, h3⟩ := exists_old_gap (Or.inr rfl) (hl₁.trans hl)
          (by rw [hrest₁, hs₁]) (by rw [← hs₁]; exact hgap₁)
          (by rw [hu]; exact endsLine_takeWhile later) hrest hgap hlegacy
        exact ⟨read', t, gap, hrun, h1, h2, h3⟩
      next =>
        refine ⟨read₁, s₁, gap₁, rfl, hrest₁, hgap₁, ?_⟩
        rw [hlegacy₁]
        exact fun start h => Or.inl h
    next =>
      refine ⟨read₁, s₁, gap₁, rfl, hrest₁, hgap₁, ?_⟩
      rw [hlegacy₁]
      exact fun start h => Or.inl h

end Scan

end Adequacy
