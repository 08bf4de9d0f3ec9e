import Adequacy.Proofs.Layout

namespace Adequacy

theorem Gap.startsBlank_eq_false {gap rest : List Char} (h : Gap gap rest) :
    startsBlank rest = false := by
  induction h with
  | nil h => exact h
  | blank _ _ ih => exact ih
  | line _ _ ih => exact ih
  | block _ _ ih => exact ih
  | openBlock => rfl
  | old _ _ _ ih => exact ih

namespace Token

/-- Whether the line comments in front of the next token end with a line feed or with the text. -/
def plainComments : List Char → Bool
  | '/' :: '/' :: line =>
    let later := line.dropWhile (!Scan.isLineEnd ·)
    later.head?.all (· == '\n') && plainComments later
  | '/' :: '*' :: body =>
    match blockEnd? body with
    | some n => plainComments (body.drop n)
    | none => true
  | c :: later => !isBlank c || plainComments later
  | [] => true
termination_by cs => cs.length
decreasing_by
  · have := (List.dropWhile_sublist (!Scan.isLineEnd ·) (l := line)).length_le
    simp only [List.length_cons]
    omega
  · simp only [List.length_cons, List.length_drop]
    omega
  · simp

theorem startsBlank_cons {c : Char} {cs : List Char} (h : Scan.isLineEnd c || Scan.isSpace c) :
    startsBlank (c :: cs) = true := by
  unfold startsBlank
  split
  next => rfl
  next => rfl
  next heq =>
    cases heq
    exact h
  next heq => cases heq

theorem munchFixed_eq (cs : List Char) :
    (∃ p ∈ punctuators, p.1.toList <+: cs ∧ munchFixed cs = (some p.2, p.1.length - 1)) ∨
      munchFixed cs = (some .error, 0) := by
  unfold munchFixed
  split
  next text kind h =>
    exact Or.inl ⟨_, List.mem_of_find?_eq_some h, by simpa using List.find?_some h, rfl⟩
  next => exact Or.inr rfl

/-- Only blanks and comments are no tokens. -/
theorem of_munch_none {c : Char} {cs : List Char} (h : (munch c cs).1 = none) :
    isBlank c = true ∨ c = '/' ∧ startsBlank (c :: cs) = true := by
  have hfixed : (munchFixed (c :: cs)).1 ≠ none := by
    rcases munchFixed_eq (c :: cs) with ⟨p, -, -, hp⟩ | hp <;> rw [hp] <;> nofun
  unfold munch at h
  split at h
  next hc => exact Or.inl hc
  next =>
    repeat' split at h
    all_goals first
      | exact absurd h hfixed
      | cases h
    all_goals subst_vars; exact Or.inr ⟨rfl, rfl⟩

theorem startsBlank_of_munch {c : Char} {cs : List Char} (h : (munch c cs).1 = none) :
    startsBlank (c :: cs) = true := by
  rcases of_munch_none h with hc | ⟨-, hc⟩
  · simp only [isBlank, Bool.or_eq_true, beq_iff_eq] at hc
    rcases hc with (((rfl | rfl) | rfl) | rfl) | rfl <;> rfl
  · exact hc

theorem eq_of_munch_rParen {c : Char} {cs : List Char} (h : (munch c cs).1 = some .rParen) :
    c = ')' := by
  have hfixed (hf : (munchFixed (c :: cs)).1 = some .rParen) : c = ')' := by
    rcases munchFixed_eq (c :: cs) with ⟨p, hmem, hpre, hp⟩ | hp
    · rw [hp] at hf
      have hone : ∀ p ∈ punctuators, p.2 = .rParen → p.1.toList = [')'] := by decide
      rw [hone p hmem (Option.some.inj hf)] at hpre
      exact (List.cons_prefix_cons.mp hpre).1.symm
    · rw [hp] at hf
      cases hf
  unfold munch at h
  repeat' split at h
  all_goals first
    | exact hfixed h
    | cases h

/-- A token that is found reads as it is expected to. -/
theorem seek_reads {expected : String} {pos : Nat} {cs : List Char} {token : Span}
    (h : seek expected pos cs = some token) :
    ∃ as bs, cs = as ++ (expected.toList ++ bs) ∧ token.start = pos + byteSize as ∧
      token.stop = token.start + byteSize expected.toList := by
  have hstep {pos n : Nat} {c : Char} {cs : List Char}
      (h : ∃ as bs, cs.drop n = as ++ (expected.toList ++ bs) ∧
        token.start = pos + byteSize (c :: cs.take n) + byteSize as ∧
        token.stop = token.start + byteSize expected.toList) :
      ∃ as bs, c :: cs = as ++ (expected.toList ++ bs) ∧ token.start = pos + byteSize as ∧
        token.stop = token.start + byteSize expected.toList := by
    obtain ⟨as, bs, hcs, hstart, hstop⟩ := h
    refine ⟨c :: cs.take n ++ as, bs, ?_, ?_, hstop⟩
    · rw [List.append_assoc, ← hcs, List.cons_append, List.take_append_drop]
    · rw [hstart, byteSize_append]
      omega
  fun_induction seek expected pos cs with
  | case1 => cases h
  | case2 pos c cs n text next hm ih => exact hstep (ih h)
  | case3 pos c cs n text next kind htext hm =>
    cases h
    have hlist : expected.toList = c :: cs.take n := by
      rw [← htext, String.toList_ofList]
    refine ⟨[], cs.drop n, ?_, rfl, ?_⟩
    · rw [hlist]
      simp
    · rw [hlist]
  | case4 pos c cs n text next htext hm ih => exact hstep (ih h)
  | case5 => cases h

section gaps

variable {expected : String} {pos : Nat} {token : Span}

theorem seek_of_munch_none {c : Char} {cs skipped later : List Char}
    (hm : munch c cs = (none, skipped.length)) (hcs : cs = skipped ++ later) :
    seek expected pos (c :: cs) = seek expected (pos + byteSize (c :: skipped)) later := by
  rw [seek, hm]
  simp [hcs]

theorem seek_of_munch_some {c : Char} {cs read later : List Char} {kind : TokenKind}
    (hm : munch c cs = (some kind, read.length)) (hcs : cs = read ++ later) (hk : kind ≠ .rParen) :
    seek expected pos (c :: cs) = if c :: read = expected.toList then
      some ⟨pos, pos + byteSize (c :: read)⟩ else none := by
  rw [seek, hm]
  have heq : String.ofList (c :: read) = expected ↔ c :: read = expected.toList := by
    rw [String.ext_iff, String.toList_ofList]
  subst hcs
  simp only [List.take_left, heq, hk, if_false]

/-- A blank is stepped over, whether or not more of them follow. -/
theorem seek_blank {c : Char} (cs : List Char) (hc : isBlank c = true) :
    seek expected pos (c :: cs) = seek expected (pos + c.utf8Size) cs := by
  have hrun {pos : Nat} {c : Char} (cs : List Char) (hc : isBlank c = true) :
      seek expected pos (c :: cs) =
        seek expected (pos + byteSize (c :: cs.takeWhile isBlank)) (cs.dropWhile isBlank) :=
    seek_of_munch_none (by simp [munch, hc]) List.takeWhile_append_dropWhile.symm
  rw [hrun cs hc]
  cases cs with
  | nil => simp
  | cons d later =>
    by_cases hd : isBlank d = true
    · rw [hrun later hd]
      simp [hd, Nat.add_assoc]
    · simp [hd]

/-- White space that is no blank here is no token that is looked up. -/
theorem seek_of_not_isBlank {c : Char} {cs : List Char}
    (he : startsBlank expected.toList = false) (hc : Scan.isLineEnd c || Scan.isSpace c)
    (hb : isBlank c = false) : seek expected pos (c :: cs) = none := by
  rcases hm : munch c cs with ⟨kind?, n⟩
  cases kind? with
  | none =>
    rcases of_munch_none (congrArg Prod.fst hm) with h | ⟨rfl, -⟩
    · rw [hb] at h
      cases h
    · exact absurd hc (by decide)
  | some kind =>
    have hk : kind ≠ .rParen := by
      rintro rfl
      cases eq_of_munch_rParen (congrArg Prod.fst hm)
      exact absurd hc (by decide)
    have htext : String.ofList (c :: cs.take n) ≠ expected := by
      rintro rfl
      rw [String.toList_ofList, startsBlank_cons hc] at he
      cases he
    rw [seek, hm]
    simp only [htext, hk, if_false]

theorem dropWhile_of_endsLine {text rest : List Char} (ht : EndsLine text rest) :
    (text ++ rest).dropWhile (!Scan.isLineEnd ·) = rest := by
  rw [List.dropWhile_append_of_pos fun c hc => by rw [ht.1 c hc]; rfl]
  cases rest with
  | nil => rfl
  | cons c later => rw [List.dropWhile_cons_of_neg (by simp [ht.2 c rfl])]

theorem ne_lineFeed_of_endsLine {text rest : List Char} (ht : EndsLine text rest) :
    ∀ c ∈ text, c ≠ '\n' := by
  rintro c hc rfl
  cases ht.1 _ hc

theorem plainComments_of_line {text rest : List Char} (ht : EndsLine text rest)
    (h : plainComments ('/' :: '/' :: (text ++ rest)) = true) :
    (∀ c ∈ rest.head?, c = '\n') ∧ plainComments rest = true := by
  rw [plainComments] at h
  rw [dropWhile_of_endsLine ht, Bool.and_eq_true] at h
  refine ⟨fun c hc => ?_, h.2⟩
  have hall := h.1
  rw [Option.mem_def.mp hc] at hall
  simpa using hall

theorem plainComments_of_blank {c : Char} {cs : List Char} (hc : isBlank c = true)
    (h : plainComments (c :: cs) = true) : plainComments cs = true := by
  simp only [isBlank, Bool.or_eq_true, beq_iff_eq] at hc
  rcases hc with (((rfl | rfl) | rfl) | rfl) | rfl <;> simpa [plainComments, isBlank] using h

theorem plainComments_of_block {text rest : List Char}
    (ht : blockEnd? (text ++ rest) = some text.length)
    (h : plainComments ('/' :: '*' :: (text ++ rest)) = true) : plainComments rest = true := by
  rw [plainComments, ht] at h
  simpa using h

theorem seek_line {text rest : List Char} (ht : ∀ c ∈ text, c ≠ '\n')
    (h : ∀ c ∈ rest.head?, c = '\n') : seek expected pos ('/' :: '/' :: (text ++ rest)) =
      seek expected (pos + byteSize ('/' :: '/' :: text)) rest := by
  have htake : (text ++ rest).takeWhile (· ≠ '\n') = text := by
    rw [List.takeWhile_append_of_pos fun c hc => decide_eq_true (ht c hc)]
    cases rest with
    | nil => simp
    | cons c later => simp [h c rfl]
  have hm : munch '/' ('/' :: (text ++ rest)) = (none, ('/' :: text).length) := by
    rw [List.length_cons, Nat.add_comm, ← congrArg List.length htake]
    rfl
  exact seek_of_munch_none hm rfl

theorem seek_block {text rest : List Char} (ht : blockEnd? (text ++ rest) = some text.length) :
    seek expected pos ('/' :: '*' :: (text ++ rest)) =
      seek expected (pos + byteSize ('/' :: '*' :: text)) rest := by
  have hm : munch '/' ('*' :: (text ++ rest)) = (none, ('*' :: text).length) := by
    rw [List.length_cons, Nat.add_comm]
    change (match blockEnd? (text ++ rest) with
      | some n => (none, 1 + n)
      | none => munchFixed ('/' :: '*' :: (text ++ rest))) = _
    rw [ht]
  exact seek_of_munch_none hm rfl

/-- The tokens that comments of the old form begin with. -/
def oldTokens : List String := ["<", "--", "#"]

/-- Where a comment of the old form begins only its first token is found. -/
theorem seek_old {mark : String} {rest : List Char} (hm : mark ∈ oldMarks)
    (h : seek expected pos (mark.toList ++ rest) = some token) :
    expected ∈ oldTokens ∧ pos ≤ token.start ∧ token.stop ≤ pos + byteSize mark.toList := by
  have key {c : Char} {cs read later : List Char} {kind : TokenKind}
      (hm : munch c cs = (some kind, read.length)) (hcs : cs = read ++ later)
      (hk : kind ≠ .rParen) (h : seek expected pos (c :: cs) = some token) :
      expected = String.ofList (c :: read) ∧ token = ⟨pos, pos + byteSize (c :: read)⟩ := by
    rw [seek_of_munch_some hm hcs hk] at h
    split at h
    next heq => exact ⟨by rw [heq, String.ofList_toList], (Option.some.inj h).symm⟩
    next => cases h
  have hopen : munch '<' ('!' :: '-' :: '-' :: rest) = (some .lt, ([] : List Char).length) := rfl
  have hclose : munch '-' ('-' :: '>' :: rest) = (some .minusMinus, ['-'].length) := rfl
  have hsharp : munch '#' ('!' :: rest) = (some .hash, ([] : List Char).length) := rfl
  simp only [oldMarks, List.mem_cons, List.not_mem_nil, or_false] at hm
  rcases hm with rfl | rfl | rfl
  · obtain ⟨rfl, rfl⟩ := key hopen rfl (by decide) h
    exact ⟨by decide, Nat.le_refl _, Nat.add_le_add_left (by decide) pos⟩
  · obtain ⟨rfl, rfl⟩ := key hclose rfl (by decide) h
    exact ⟨by decide, Nat.le_refl _, Nat.add_le_add_left (by decide) pos⟩
  · obtain ⟨rfl, rfl⟩ := key hsharp rfl (by decide) h
    exact ⟨by decide, Nat.le_refl _, Nat.add_le_add_left (by decide) pos⟩

/-- A gap with plain comments is stepped over, but for comments of the old form. -/
theorem seek_gap {gap rest : List Char} (hg : Gap gap rest) (hr : rest ≠ [])
    (he : startsBlank expected.toList = false) (hp : plainComments (gap ++ rest) = true)
    (h : seek expected pos (gap ++ rest) = some token) :
    seek expected (pos + byteSize gap) rest = some token ∨
      expected ∈ oldTokens ∧ pos ≤ token.start ∧ token.stop ≤ pos + byteSize gap := by
  have hstep {pos : Nat} {skipped gap rest : List Char}
      (h : seek expected (pos + byteSize skipped + byteSize gap) rest = some token ∨
        expected ∈ oldTokens ∧ pos + byteSize skipped ≤ token.start ∧
          token.stop ≤ pos + byteSize skipped + byteSize gap) :
      seek expected (pos + byteSize (skipped ++ gap)) rest = some token ∨
        expected ∈ oldTokens ∧ pos ≤ token.start ∧
          token.stop ≤ pos + byteSize (skipped ++ gap) := by
    rw [byteSize_append, ← Nat.add_assoc]
    exact h.imp_right fun ⟨hold, hstart, hstop⟩ => ⟨hold, by omega, hstop⟩
  induction hg generalizing pos with
  | nil => exact Or.inl h
  | @blank c gap rest hc hg ih =>
    by_cases hb : isBlank c = true
    · have hlater := plainComments_of_blank hb hp
      rw [List.cons_append, seek_blank _ hb] at h
      exact @hstep pos [c] gap rest (ih hr hlater h)
    · rw [List.cons_append, seek_of_not_isBlank he hc (by simpa using hb)] at h
      cases h
  | @line text gap rest ht hg ih =>
    simp only [List.cons_append, List.append_assoc] at h hp
    obtain ⟨hend, hlater⟩ := plainComments_of_line ht hp
    rw [seek_line (ne_lineFeed_of_endsLine ht) hend] at h
    exact @hstep pos ('/' :: '/' :: text) gap rest (ih hr hlater h)
  | @block text gap rest ht hg ih =>
    simp only [List.cons_append, List.append_assoc] at h hp
    rw [seek_block ht] at h
    exact @hstep pos ('/' :: '*' :: text) gap rest (ih hr (plainComments_of_block ht hp) h)
  | openBlock => exact absurd rfl hr
  | @old mark text gap rest hm ht hg ih =>
    simp only [List.append_assoc] at h
    obtain ⟨hold, hstart, hstop⟩ := seek_old hm h
    refine Or.inr ⟨hold, hstart, ?_⟩
    rw [byteSize_append]
    omega

/-- At a lexeme nothing else is found. -/
theorem start_of_seek {c : Char} {cs : List Char} (hc : startsBlank (c :: cs) = false)
    (hparen : c ≠ ')') (h : seek expected pos (c :: cs) = some token) : token.start = pos := by
  rw [seek] at h
  rcases hm : munch c cs with ⟨kind?, n⟩
  rw [hm] at h
  cases kind? with
  | none =>
    rw [startsBlank_of_munch (congrArg Prod.fst hm)] at hc
    cases hc
  | some kind =>
    dsimp only at h
    split at h
    next => rw [← Option.some.inj h]
    next =>
      split at h
      next hk =>
        subst hk
        exact absurd (eq_of_munch_rParen (congrArg Prod.fst hm)) hparen
      next => cases h

end gaps

/-- Whether a text can begin a token that is looked up. -/
def isSought (text : String) : Bool :=
  !startsBlank text.toList && text.toList.head?.any (· != ')')

/-- Whether the comments behind an offset are plain. -/
def plainBehind (text : List Char) (offset : Nat) : Bool := plainComments (dropBytes offset text)

section lookups

variable {source lexeme expected : String} {offset stop : Nat} {token : Span}

theorem find?_eq_some_iff : find? source offset expected = some token ↔
    ∃ as bs, source.toList = as ++ bs ∧ byteSize as = offset ∧
      seek expected offset bs = some token := by
  rw [find?, Option.bind_eq_some_iff]
  constructor
  · rintro ⟨bs, hbs, h⟩
    obtain ⟨as, htext, hsize⟩ := charsFrom?_eq_some_iff.mp hbs
    exact ⟨as, bs, htext, hsize, h⟩
  · rintro ⟨as, bs, htext, hsize, h⟩
    exact ⟨bs, charsFrom?_eq_some_iff.mpr ⟨as, htext, hsize⟩, h⟩

/-- A token that is found lies in the text behind the offset and reads as it is expected to. -/
theorem find?_reads (h : find? source offset expected = some token) :
    token.In source.toList ∧ offset ≤ token.start ∧
      token.stop = token.start + expected.utf8ByteSize := by
  obtain ⟨as, bs, htext, rfl, hseek⟩ := find?_eq_some_iff.mp h
  obtain ⟨mid, later, rfl, hstart, hstop⟩ := seek_reads hseek
  rw [utf8ByteSize_eq_byteSize]
  refine ⟨⟨?_, ?_, by omega⟩, by omega, hstop⟩
  · refine isBoundary_iff.mpr ⟨as ++ mid, expected.toList ++ later, by rw [htext]; simp, ?_⟩
    rw [hstart, byteSize_append]
  · refine isBoundary_iff.mpr ⟨as ++ mid ++ expected.toList, later, by rw [htext]; simp, ?_⟩
    rw [hstop, hstart, byteSize_append, byteSize_append]

/-- A token that is looked up behind plain comments begins where the next lexeme does. Only what a
comment of the old form begins with may be found in front of it. -/
theorem find?_behind (hb : Behind source.toList offset lexeme stop)
    (hp : plainBehind source.toList offset = true) (hl : isSought lexeme = true)
    (he : isSought expected = true) (h : find? source offset expected = some token) :
    token.start + lexeme.utf8ByteSize = stop ∨
      expected ∈ oldTokens ∧ token.stop + lexeme.utf8ByteSize ≤ stop := by
  obtain ⟨front, gap, rest, htext, hfront, hgap, hstop⟩ := hb
  obtain ⟨as, bs, htext', hsize, hseek⟩ := find?_eq_some_iff.mp h
  obtain ⟨rfl, rfl⟩ := append_inj_of_byteSize_eq (htext.symm.trans htext') (hfront.trans hsize.symm)
  rw [plainBehind, htext, ← hfront, dropBytes_byteSize_append] at hp
  simp only [isSought, Bool.and_eq_true, Bool.not_eq_true', Option.any_eq_true, bne_iff_ne] at hl he
  obtain ⟨-, c, hc, hparen⟩ := hl
  obtain ⟨later, hlexeme⟩ := List.head?_eq_some_iff.mp hc
  rw [utf8ByteSize_eq_byteSize]
  rcases seek_gap hgap (by simp [hlexeme]) he.1 hp hseek with hseek | ⟨hold, -, hle⟩
  · left
    have hblank := hgap.startsBlank_eq_false
    rw [hlexeme, List.cons_append] at hseek hblank
    rw [start_of_seek hblank hparen hseek]
    exact hstop
  · exact Or.inr ⟨hold, by omega⟩

/-- A token that is looked up behind plain comments ends no later than the next lexeme. -/
theorem stop_le_of_find? (hb : Behind source.toList offset lexeme stop)
    (hp : plainBehind source.toList offset = true) (hl : isSought lexeme = true)
    (h : find? source offset lexeme = some token) : token.stop ≤ stop := by
  obtain ⟨-, -, hstop⟩ := find?_reads h
  rcases find?_behind hb hp hl hl h with hstart | ⟨-, hle⟩ <;> omega

end lookups

end Token

end Adequacy
