import Adequacy.Proofs.Lookup
import Mathlib.Computability.Language

namespace Adequacy

namespace Token

open scoped Computability

/-- A character with a property. -/
def one (p : Char → Bool) : Language Char := {text | ∃ c, p c = true ∧ text = [c]}

/-- A character with one property, and then characters with another. -/
def run (p q : Char → Bool) : Language Char := one p * (one q)∗

def written (text : String) : Language Char := {text.toList}

def stars : Language Char := run (· == '*') (· == '*')

def lineComment : Language Char := written "//" * (one (· != '\n'))∗

/-- What a comment is made of in front of the stars and the slash that end it. -/
def commentPart : Language Char :=
  one (· != '*') + stars * one fun c => c != '*' && c != '/'

def blockComment : Language Char :=
  written "/*" * (commentPart∗ * (stars * written "/"))

/-- A character of a quoted text, with a backslash in front of it or one that needs none. -/
def quotedChar (quote : Char) : Language Char :=
  (one fun c => c != quote && c != '\\' && c != '\n') + written "\\" * one (· != '\n')

def quotedText (quote : Char) : Language Char :=
  one (· == quote) * ((quotedChar quote)∗ * one (· == quote))

/-- The patterns of tokens and of what is skipped between them, which is of no kind. -/
def patterns : List (Option TokenKind × Language Char) :=
  [(none, run isBlank isBlank), (none, lineComment), (none, blockComment),
   (some .ident, run isIdentStart isIdentPart), (some .number, run Char.isDigit isNumberPart),
   (some .string, quotedText '"'), (some .string, quotedText '\'')] ++
    punctuators.map fun p => (some p.2, written p.1)

/-- A pattern of the kind matches the text. -/
def Matches (kind? : Option TokenKind) (text : List Char) : Prop :=
  ∃ pattern, (kind?, pattern) ∈ patterns ∧ text ∈ pattern

/-- A text begins with this one, and it is the longest that any pattern matches there. -/
structure Longest (kind? : Option TokenKind) (text cs : List Char) : Prop where
  begins : text <+: cs
  isMatch : Matches kind? text
  longest : ∀ other? other, Matches other? other → other <+: cs → other.length ≤ text.length

section languages

variable {p q : Char → Bool} {l : Language Char} {text cs : List Char}

theorem mem_written_iff {word : String} : text ∈ written word ↔ text = word.toList := Iff.rfl

theorem append_mem_kstar {as bs : List Char} (ha : as ∈ l) (hb : bs ∈ l∗) : as ++ bs ∈ l∗ := by
  obtain ⟨parts, rfl, hparts⟩ := Language.mem_kstar.mp hb
  refine Language.mem_kstar.mpr ⟨as :: parts, rfl, fun part hpart => ?_⟩
  rcases List.mem_cons.mp hpart with rfl | hpart
  · exact ha
  · exact hparts part hpart

/-- What is made of members in a row has what such a row keeps. -/
@[elab_as_elim]
theorem kstar_induction {motive : List Char → Prop} (h : text ∈ l∗) (nil : motive [])
    (append : ∀ as ∈ l, ∀ bs ∈ l∗, motive bs → motive (as ++ bs)) : motive text := by
  obtain ⟨parts, rfl, hparts⟩ := Language.mem_kstar.mp h
  clear h
  induction parts with
  | nil => exact nil
  | cons part parts ih =>
    obtain ⟨hpart, hparts⟩ := List.forall_mem_cons.mp hparts
    exact append part hpart _ (Language.join_mem_kstar hparts) (ih hparts)

theorem mem_kstar_one_iff : text ∈ (one p)∗ ↔ ∀ c ∈ text, p c = true := by
  constructor
  · intro h
    refine kstar_induction h (List.forall_mem_nil _) ?_
    rintro _ ⟨c, hc, rfl⟩ bs - ih
    exact List.forall_mem_cons.mpr ⟨hc, ih⟩
  · intro h
    induction text with
    | nil => exact Language.nil_mem_kstar _
    | cons c cs ih =>
      obtain ⟨hc, hcs⟩ := List.forall_mem_cons.mp h
      have hone : [c] ∈ one p := ⟨c, hc, rfl⟩
      exact append_mem_kstar hone (ih hcs)

theorem mem_run_iff : text ∈ run p q ↔
    ∃ c cs, text = c :: cs ∧ p c = true ∧ ∀ d ∈ cs, q d = true := by
  rw [run, Language.mem_mul]
  constructor
  · rintro ⟨_, ⟨c, hc, rfl⟩, cs, hcs, rfl⟩
    exact ⟨c, cs, rfl, hc, mem_kstar_one_iff.mp hcs⟩
  · rintro ⟨c, cs, rfl, hc, hcs⟩
    exact ⟨[c], ⟨c, hc, rfl⟩, cs, mem_kstar_one_iff.mpr hcs, rfl⟩

theorem mem_lineComment_iff : text ∈ lineComment ↔
    ∃ cs, text = '/' :: '/' :: cs ∧ ∀ d ∈ cs, d ≠ '\n' := by
  rw [lineComment, Language.mem_mul]
  constructor
  · rintro ⟨_, rfl, cs, hcs, rfl⟩
    exact ⟨cs, rfl, fun d hd => bne_iff_ne.mp (mem_kstar_one_iff.mp hcs d hd)⟩
  · rintro ⟨cs, rfl, hcs⟩
    exact ⟨_, rfl, cs, mem_kstar_one_iff.mpr fun d hd => bne_iff_ne.mpr (hcs d hd), rfl⟩

end languages

section comments

variable {c : Char} {text cs rest : List Char} {n : Nat}

theorem blockEnd?_cons (h : ¬ (c = '*' ∧ ∃ later, cs = '/' :: later)) :
    blockEnd? (c :: cs) = (blockEnd? cs).map (· + 1) := by
  rw [blockEnd?]
  rintro later rfl rfl
  exact h ⟨rfl, later, rfl⟩

/-- A comment ends where it does no matter what follows. -/
theorem blockEnd?_append (h : blockEnd? cs = some n) : blockEnd? (cs ++ rest) = some n := by
  fun_induction blockEnd? cs generalizing n with
  | case1 => exact h
  | case2 c cs hne ih =>
    obtain ⟨m, hm, rfl⟩ := Option.map_eq_some_iff.mp h
    have hstar : ¬ (c = '*' ∧ ∃ later, cs ++ rest = '/' :: later) := by
      rintro ⟨rfl, later, hlater⟩
      cases cs with
      | nil => cases hm
      | cons d cs =>
        cases hlater
        exact hne _ rfl rfl
    rw [List.cons_append, blockEnd?_cons hstar, ih hm]
    rfl
  | case3 => cases h

/-- Where a comment ends is told by what is in front of its end. -/
theorem blockEnd?_take (h : blockEnd? cs = some n) :
    n ≤ cs.length ∧ blockEnd? (cs.take n) = some n := by
  fun_induction blockEnd? cs generalizing n with
  | case1 =>
    cases h
    exact ⟨by simp, rfl⟩
  | case2 c cs hne ih =>
    obtain ⟨m, hm, rfl⟩ := Option.map_eq_some_iff.mp h
    obtain ⟨hle, htake⟩ := ih hm
    have hstar : ¬ (c = '*' ∧ ∃ later, cs.take m = '/' :: later) := by
      rintro ⟨rfl, later, hlater⟩
      cases cs with
      | nil => simp at hlater
      | cons d cs =>
        cases m with
        | zero => cases hlater
        | succ m =>
          cases hlater
          exact hne _ rfl rfl
    refine ⟨Nat.succ_le_succ hle, ?_⟩
    rw [List.take_succ_cons, blockEnd?_cons hstar, htake]
    rfl
  | case3 => cases h

theorem mem_stars_iff : text ∈ stars ↔ ∃ n, text = '*' :: List.replicate n '*' := by
  rw [stars, mem_run_iff]
  constructor
  · rintro ⟨c, cs, rfl, hc, hcs⟩
    rw [eq_of_beq hc]
    exact ⟨cs.length, by rw [← List.eq_replicate_of_mem fun d hd => eq_of_beq (hcs d hd)]⟩
  · rintro ⟨n, rfl⟩
    exact ⟨'*', _, rfl, rfl, fun d hd => beq_iff_eq.mpr (List.eq_of_mem_replicate hd)⟩

theorem blockEnd?_stars : blockEnd? ('*' :: (List.replicate n '*' ++ cs)) =
    (blockEnd? ('*' :: cs)).map (· + n) := by
  induction n with
  | zero => simp
  | succ n ih =>
    rw [List.replicate_succ, List.cons_append, blockEnd?_cons (by simp), ih, Option.map_map]
    rfl

theorem blockEnd?_of_parts (hbody : text ∈ commentPart∗) (hend : cs ∈ stars * written "/") :
    blockEnd? (text ++ cs) = some (text ++ cs).length := by
  obtain ⟨_, hstars, _, rfl, rfl⟩ := Language.mem_mul.mp hend
  obtain ⟨n, rfl⟩ := mem_stars_iff.mp hstars
  refine kstar_induction hbody ?_ ?_
  · have hlast : blockEnd? ['*', '/'] = some 2 := rfl
    have hstars : blockEnd? ('*' :: (List.replicate n '*' ++ ['/'])) = some (2 + n) := by
      rw [blockEnd?_stars, hlast]
      rfl
    refine hstars.trans (congrArg some ?_)
    simp
    omega
  · rintro _ (⟨c, hc, rfl⟩ | hpart) bs - ih
    · rw [List.append_assoc, List.singleton_append,
        blockEnd?_cons fun h => bne_iff_ne.mp hc h.1, ih]
      rfl
    · obtain ⟨_, hstars, _, ⟨c, hc, rfl⟩, rfl⟩ := Language.mem_mul.mp hpart
      obtain ⟨m, rfl⟩ := mem_stars_iff.mp hstars
      obtain ⟨hstar, hslash⟩ := Bool.and_eq_true_iff.mp hc
      simp only [List.append_assoc, List.cons_append, List.nil_append]
      rw [blockEnd?_stars, blockEnd?_cons fun h => bne_iff_ne.mp hslash (by simp_all),
        blockEnd?_cons fun h => bne_iff_ne.mp hstar h.1]
      simp only [List.cons_append] at ih
      rw [ih]
      simp
      omega

theorem cons_mem_stars (h : text ∈ stars) : '*' :: text ∈ stars := by
  obtain ⟨n, rfl⟩ := mem_stars_iff.mp h
  exact mem_stars_iff.mpr ⟨n + 1, rfl⟩

theorem cons_mem_commentPart (h : text ∈ commentPart) (hslash : text.head? ≠ some '/') :
    '*' :: text ∈ commentPart := by
  right
  rcases h with ⟨c, hc, rfl⟩ | hpart
  · have hne : (c != '*' && c != '/') = true :=
      Bool.and_eq_true_iff.mpr ⟨hc, bne_iff_ne.mpr fun h => hslash (by rw [h]; rfl)⟩
    exact ⟨['*'], mem_stars_iff.mpr ⟨0, rfl⟩, [c], ⟨c, hne, rfl⟩, rfl⟩
  · obtain ⟨_, hstars, _, hlast, rfl⟩ := Language.mem_mul.mp hpart
    exact ⟨_, cons_mem_stars hstars, _, hlast, rfl⟩

theorem parts_of_blockEnd? (h : blockEnd? cs = some cs.length) :
    cs ∈ commentPart∗ * (stars * written "/") := by
  have hstars : ['*'] ∈ stars := mem_stars_iff.mpr ⟨0, rfl⟩
  fun_induction blockEnd? cs with
  | case1 later =>
    cases later with
    | nil => exact ⟨[], Language.nil_mem_kstar _, _, Language.append_mem_mul hstars rfl, rfl⟩
    | cons c later => simp at h
  | case2 c cs hne ih =>
    obtain ⟨m, hm, hlength⟩ := Option.map_eq_some_iff.mp h
    have hcs : blockEnd? cs = some cs.length := by
      rw [hm]
      simpa using hlength
    obtain ⟨body, hbody, ending, hending, rfl⟩ := Language.mem_mul.mp (ih hcs)
    by_cases hc : c = '*'
    · subst hc
      obtain ⟨parts, rfl, hparts⟩ := Language.mem_kstar_iff_exists_nonempty.mp hbody
      cases parts with
      | nil =>
        obtain ⟨_, hstars, _, hslash, rfl⟩ := Language.mem_mul.mp hending
        exact ⟨[], Language.nil_mem_kstar _, _, ⟨_, cons_mem_stars hstars, _, hslash, rfl⟩, rfl⟩
      | cons part parts =>
        obtain ⟨⟨hpart, hfull⟩, hparts⟩ := List.forall_mem_cons.mp hparts
        have hslash : part.head? ≠ some '/' := fun h => by
          obtain ⟨later, rfl⟩ := List.head?_eq_some_iff.mp h
          exact hne _ rfl rfl
        have hrest := Language.join_mem_kstar fun part hmem => (hparts part hmem).1
        exact ⟨_, append_mem_kstar (cons_mem_commentPart hpart hslash) hrest, ending, hending, rfl⟩
    · have hpart : [c] ∈ commentPart := Or.inl ⟨c, bne_iff_ne.mpr hc, rfl⟩
      exact ⟨[c] ++ body, append_mem_kstar hpart hbody, ending, hending, rfl⟩
  | case3 => cases h

/-- A comment is matched up to its first end. -/
theorem mem_blockComment_iff : text ∈ blockComment ↔
    ∃ cs, text = '/' :: '*' :: cs ∧ blockEnd? cs = some cs.length := by
  rw [blockComment, Language.mem_mul]
  constructor
  · rintro ⟨_, rfl, cs, hcs, rfl⟩
    obtain ⟨body, hbody, ending, hending, rfl⟩ := Language.mem_mul.mp hcs
    exact ⟨body ++ ending, rfl, blockEnd?_of_parts hbody hending⟩
  · rintro ⟨cs, rfl, hcs⟩
    exact ⟨_, rfl, cs, parts_of_blockEnd? hcs, rfl⟩

end comments

section quotes

variable {quote : Char} {text cs rest : List Char} {n : Nat}

theorem quoted_cons {c : Char} (hc : c ≠ '\\') (hq : c ≠ quote) (hline : c ≠ '\n') :
    quoted quote (c :: cs) = ((quoted quote cs).1 + 1, (quoted quote cs).2) := by
  rw [quoted]
  · simp [hq, hline]
  all_goals simp [hc]

theorem quoted_escape {c : Char} (hc : c ≠ '\n') : quoted quote ('\\' :: c :: cs) =
    ((quoted quote cs).1 + 2, (quoted quote cs).2) := by
  rw [quoted]
  simp [hc]

theorem quoted_quote (hq : quote ≠ '\\') : quoted quote (quote :: cs) = (1, true) := by
  rw [quoted]
  · simp
  all_goals simp [hq]

/-- A quoted text ends where it does no matter what follows. -/
theorem quoted_of_chars (hq : quote ≠ '\\') (h : text ∈ (quotedChar quote)∗) :
    quoted quote (text ++ quote :: rest) = (text.length + 1, true) := by
  refine kstar_induction h (quoted_quote hq) ?_
  rintro _ (⟨c, hc, rfl⟩ | hpair) bs - ih
  · simp only [Bool.and_eq_true, bne_iff_ne] at hc
    rw [List.append_assoc, List.singleton_append, quoted_cons hc.1.2 hc.1.1 hc.2, ih]
    simp
  · obtain ⟨_, rfl, _, ⟨c, hc, rfl⟩, rfl⟩ := Language.mem_mul.mp hpair
    have hescape : quoted quote ('\\' :: c :: (bs ++ quote :: rest)) = _ :=
      quoted_escape (bne_iff_ne.mp hc)
    rw [ih] at hescape
    simpa using hescape

theorem chars_of_quoted (h : (quoted quote cs).2 = true) :
    ∃ body rest, cs = body ++ quote :: rest ∧ body ∈ (quotedChar quote)∗ ∧
      (quoted quote cs).1 = body.length + 1 := by
  fun_induction quoted quote cs with
  | case1 => cases h
  | case2 => cases h
  | case3 => cases h
  | case4 c cs hline r ih =>
    obtain ⟨body, rest, rfl, hbody, hlength⟩ := ih h
    have hpair : ['\\', c] ∈ quotedChar quote :=
      Or.inr ⟨['\\'], rfl, [c], ⟨c, bne_iff_ne.mpr hline, rfl⟩, rfl⟩
    exact ⟨['\\', c] ++ body, rest, rfl, append_mem_kstar hpair hbody, congrArg (· + 2) hlength⟩
  | case5 cs => exact ⟨[], cs, rfl, Language.nil_mem_kstar _, rfl⟩
  | case6 => cases h
  | case7 c cs hend _ hpair hq hline r ih =>
    have hslash : c ≠ '\\' := by
      rintro rfl
      cases cs with
      | nil => exact hend rfl rfl
      | cons d cs => exact hpair d cs rfl rfl
    obtain ⟨body, rest, rfl, hbody, hlength⟩ := ih h
    have hchar : [c] ∈ quotedChar quote := Or.inl ⟨c, by simp [hq, hslash, hline], rfl⟩
    exact ⟨[c] ++ body, rest, rfl, append_mem_kstar hchar hbody, congrArg (· + 1) hlength⟩

theorem quoted_eq_length_iff (hq : quote ≠ '\\') : quoted quote cs = (cs.length, true) ↔
    ∃ body ∈ (quotedChar quote)∗, cs = body ++ [quote] := by
  constructor
  · intro h
    obtain ⟨body, rest, rfl, hbody, hlength⟩ := chars_of_quoted (congrArg Prod.snd h)
    rw [h] at hlength
    obtain rfl : rest = [] := by simpa using hlength
    exact ⟨body, hbody, rfl⟩
  · rintro ⟨body, hbody, rfl⟩
    rw [quoted_of_chars hq hbody, List.length_append]
    rfl

theorem mem_quotedText_iff (hq : quote ≠ '\\') : text ∈ quotedText quote ↔
    ∃ cs, text = quote :: cs ∧ quoted quote cs = (cs.length, true) := by
  rw [quotedText, Language.mem_mul]
  constructor
  · rintro ⟨_, ⟨c, hc, rfl⟩, _, hrest, rfl⟩
    obtain ⟨body, hbody, _, ⟨d, hd, rfl⟩, rfl⟩ := Language.mem_mul.mp hrest
    rw [eq_of_beq hc, eq_of_beq hd]
    exact ⟨_, rfl, (quoted_eq_length_iff hq).mpr ⟨body, hbody, rfl⟩⟩
  · rintro ⟨cs, rfl, h⟩
    obtain ⟨body, hbody, rfl⟩ := (quoted_eq_length_iff hq).mp h
    exact ⟨[quote], ⟨quote, beq_self_eq_true quote, rfl⟩, _,
      Language.append_mem_mul hbody ⟨quote, beq_self_eq_true quote, rfl⟩, rfl⟩

end quotes

section munching

variable {kind? : Option TokenKind} {text cs : List Char} {c : Char}

/-- The texts that the patterns match, by the functions that read them. -/
inductive Spelled : Option TokenKind → List Char → Prop where
  | blanks {c : Char} {cs : List Char} (hc : isBlank c = true) (h : ∀ d ∈ cs, isBlank d = true) :
      Spelled none (c :: cs)
  | line {cs : List Char} (h : ∀ d ∈ cs, d ≠ '\n') : Spelled none ('/' :: '/' :: cs)
  | block {cs : List Char} (h : blockEnd? cs = some cs.length) : Spelled none ('/' :: '*' :: cs)
  | ident {c : Char} {cs : List Char} (hc : isIdentStart c = true)
      (h : ∀ d ∈ cs, isIdentPart d = true) : Spelled (some .ident) (c :: cs)
  | number {c : Char} {cs : List Char} (hc : c.isDigit = true)
      (h : ∀ d ∈ cs, isNumberPart d = true) : Spelled (some .number) (c :: cs)
  | string {quote : Char} {cs : List Char} (hq : quote = '"' ∨ quote = '\'')
      (h : quoted quote cs = (cs.length, true)) : Spelled (some .string) (quote :: cs)
  | fixed {entry : String × TokenKind} (h : entry ∈ punctuators) :
      Spelled (some entry.2) entry.1.toList

theorem matches_iff_spelled : Matches kind? text ↔ Spelled kind? text := by
  constructor
  · rintro ⟨pattern, hmem, htext⟩
    rcases List.mem_append.mp hmem with hmem | hmem
    · simp only [List.mem_cons, List.not_mem_nil, or_false, Prod.mk.injEq] at hmem
      rcases hmem with h | h | h | h | h | h | h <;> obtain ⟨rfl, rfl⟩ := h
      · obtain ⟨c, cs, rfl, hc, hcs⟩ := mem_run_iff.mp htext
        exact .blanks hc hcs
      · obtain ⟨cs, rfl, hcs⟩ := mem_lineComment_iff.mp htext
        exact .line hcs
      · obtain ⟨cs, rfl, hcs⟩ := mem_blockComment_iff.mp htext
        exact .block hcs
      · obtain ⟨c, cs, rfl, hc, hcs⟩ := mem_run_iff.mp htext
        exact .ident hc hcs
      · obtain ⟨c, cs, rfl, hc, hcs⟩ := mem_run_iff.mp htext
        exact .number hc hcs
      · obtain ⟨cs, rfl, hcs⟩ := (mem_quotedText_iff (by decide)).mp htext
        exact .string (Or.inl rfl) hcs
      · obtain ⟨cs, rfl, hcs⟩ := (mem_quotedText_iff (by decide)).mp htext
        exact .string (Or.inr rfl) hcs
    · obtain ⟨entry, hentry, heq⟩ := List.mem_map.mp hmem
      obtain ⟨rfl, rfl⟩ := Prod.mk.inj heq
      rw [mem_written_iff.mp htext]
      exact .fixed hentry
  · intro h
    have nth {pattern : Language Char} (i : Nat) (hi : patterns[i]? = some (kind?, pattern))
        (htext : text ∈ pattern) : Matches kind? text := ⟨pattern, List.mem_of_getElem? hi, htext⟩
    cases h with
    | blanks hc hcs => exact nth 0 rfl (mem_run_iff.mpr ⟨_, _, rfl, hc, hcs⟩)
    | line hcs => exact nth 1 rfl (mem_lineComment_iff.mpr ⟨_, rfl, hcs⟩)
    | block hcs => exact nth 2 rfl (mem_blockComment_iff.mpr ⟨_, rfl, hcs⟩)
    | ident hc hcs => exact nth 3 rfl (mem_run_iff.mpr ⟨_, _, rfl, hc, hcs⟩)
    | number hc hcs => exact nth 4 rfl (mem_run_iff.mpr ⟨_, _, rfl, hc, hcs⟩)
    | string hq hcs =>
      rcases hq with rfl | rfl
      · exact nth 5 rfl ((mem_quotedText_iff (by decide)).mpr ⟨_, rfl, hcs⟩)
      · exact nth 6 rfl ((mem_quotedText_iff (by decide)).mpr ⟨_, rfl, hcs⟩)
    | @fixed entry hentry =>
      exact ⟨written entry.1, List.mem_append_right _ (List.mem_map_of_mem hentry), rfl⟩

/-- No spelling that fits is longer than the first one that does. -/
theorem length_le_munchFixed {entry : String × TokenKind} (h : entry ∈ punctuators)
    (hfits : entry.1.toList <+: cs) :
    (munchFixed cs).1 ≠ some .error ∧ entry.1.toList.length ≤ (munchFixed cs).2 + 1 := by
  have hsorted : punctuators.Pairwise fun a b => ¬ a.1.toList <+: b.1.toList := by decide +kernel
  have hkind : ∀ entry ∈ punctuators, entry.2 ≠ .error := by decide
  unfold munchFixed
  split
  next text kind hfound =>
    have hmem := List.mem_of_find?_eq_some hfound
    obtain ⟨hfound, before, after, hsplit, hbefore⟩ := List.find?_eq_some_iff_append.mp hfound
    refine ⟨fun h => hkind _ hmem (Option.some.inj h), ?_⟩
    have hle : entry.1.toList.length ≤ text.toList.length := by
      rw [hsplit] at h hsorted
      rcases List.mem_append.mp h with h | h
      · have hno := hbefore entry h
        rw [List.isPrefixOf_iff_prefix.mpr hfits] at hno
        cases hno
      · rcases List.mem_cons.mp h with rfl | h
        · exact Nat.le_refl _
        · have hlater := (List.pairwise_cons.mp (List.pairwise_append.mp hsorted).2.1).1 entry h
          have hfound := List.isPrefixOf_iff_prefix.mp hfound
          rcases List.prefix_or_prefix_of_prefix hfits hfound with h | h
          · exact h.length_le
          · exact absurd h hlater
    simp only [String.length_toList] at hle ⊢
    omega
  next hnone =>
    have hno := List.find?_eq_none.mp hnone entry h
    exact absurd (List.isPrefixOf_iff_prefix.mpr hfits) hno

theorem ordinary_of_isBlank (h : isBlank c = true) :
    isIdentStart c = false ∧ c.isDigit = false := by
  simp only [isBlank, Bool.or_eq_true, beq_iff_eq] at h
  rcases h with (((rfl | rfl) | rfl) | rfl) | rfl <;> decide

theorem isBlank_of_isIdentStart (h : isIdentStart c = true) : isBlank c = false := by
  by_contra hb
  rw [(ordinary_of_isBlank (by simpa using hb)).1] at h
  cases h

theorem isAlpha_of_isDigit (h : c.isDigit = true) : c.isAlpha = false := by
  have hdigit : c.val ≤ 57 := of_decide_eq_true (Bool.and_eq_true_iff.mp h).2
  refine Bool.eq_false_iff.mpr fun halpha => ?_
  have hletter : 65 ≤ c.val ∨ 97 ≤ c.val := by
    rcases Bool.or_eq_true_iff.mp halpha with hupper | hlower
    · exact .inl (of_decide_eq_true hupper).1
    · exact .inr (of_decide_eq_true (Bool.and_eq_true_iff.mp hlower).1)
  simp only [UInt32.le_iff_toNat_le, UInt32.reduceToNat] at hdigit hletter
  omega

theorem isIdentStart_of_isDigit (h : c.isDigit = true) : isIdentStart c = false := by
  have hunder : c ≠ '_' := by
    rintro rfl
    cases h
  have hdollar : c ≠ '$' := by
    rintro rfl
    cases h
  simp [isIdentStart, isAlpha_of_isDigit h, hunder, hdollar]

theorem munch_blank (h : isBlank c = true) :
    munch c cs = (none, (cs.takeWhile isBlank).length) := by
  unfold munch
  rw [if_pos h]

theorem munch_ident (h : isIdentStart c = true) :
    munch c cs = (some .ident, (cs.takeWhile isIdentPart).length) := by
  unfold munch
  rw [if_neg (by simp [isBlank_of_isIdentStart h]), if_pos h]

theorem munch_number (h : c.isDigit = true) :
    munch c cs = (some .number, (cs.takeWhile isNumberPart).length) := by
  have hblank : isBlank c = false := by
    by_contra hb
    rw [(ordinary_of_isBlank (by simpa using hb)).2] at h
    cases h
  unfold munch
  rw [if_neg (by simp [hblank]), if_neg (by simp [isIdentStart_of_isDigit h]), if_pos h]

theorem munch_quote (h : c = '"' ∨ c = '\'') :
    munch c cs = (some (if (quoted c cs).2 then .string else .error), (quoted c cs).1) := by
  rcases h with rfl | rfl <;> rfl

theorem munch_line : munch '/' ('/' :: cs) = (none, 1 + (cs.takeWhile (· ≠ '\n')).length) := rfl

theorem munch_block {n : Nat} (h : blockEnd? cs = some n) :
    munch '/' ('*' :: cs) = (none, 1 + n) := by
  simp [munch, isBlank, isIdentStart, h]

/-- A character that begins no other lexeme begins a fixed spelling or a comment. -/
theorem munch_fixed (hb : isBlank c = false) (hi : isIdentStart c = false)
    (hd : c.isDigit = false) (hq : ¬ (c = '"' ∨ c = '\'')) :
    munch c cs = munchFixed (c :: cs) ∨ c = '/' ∧ ((∃ line, cs = '/' :: line) ∨
      ∃ body n, cs = '*' :: body ∧ blockEnd? body = some n) := by
  unfold munch
  rw [if_neg (by simp [hb]), if_neg (by simp [hi]), if_neg (by simp [hd]), if_neg hq]
  split
  next hc =>
    split
    next line => exact Or.inr ⟨hc, Or.inl ⟨line, rfl⟩⟩
    next body =>
      split
      next n hn => exact Or.inr ⟨hc, Or.inr ⟨body, n, rfl, hn⟩⟩
      next => exact Or.inl rfl
    next => exact Or.inl rfl
  next => exact Or.inl rfl

theorem take_length_takeWhile (p : Char → Bool) (cs : List Char) :
    cs.take (cs.takeWhile p).length = cs.takeWhile p :=
  (List.prefix_iff_eq_take.mp (List.takeWhile_prefix p)).symm

theorem punctuator_eq_cons {entry : String × TokenKind} (h : entry ∈ punctuators) :
    ∃ c cs, entry.1.toList = c :: cs ∧ isBlank c = false ∧ isIdentStart c = false ∧
      c.isDigit = false ∧ ¬ (c = '"' ∨ c = '\'') ∧ (c = '/' → cs.length ≤ 1) := by
  have hall : (punctuators.all fun entry => entry.1.toList.head?.any fun c => !isBlank c &&
      !isIdentStart c && !c.isDigit && c != '"' && c != '\'' &&
      (c != '/' || entry.1.toList.length ≤ 2)) = true := by decide +kernel
  obtain ⟨c, hc, hfirst⟩ := (Option.any_eq_true ..).mp (List.all_eq_true.mp hall entry h)
  obtain ⟨cs, htext⟩ := List.head?_eq_some_iff.mp hc
  simp only [Bool.and_eq_true, Bool.not_eq_true', bne_iff_ne, htext, List.length_cons] at hfirst
  obtain ⟨⟨⟨⟨⟨hb, hi⟩, hd⟩, hdouble⟩, hsingle⟩, hslash⟩ := hfirst
  refine ⟨c, cs, htext, hb, hi, hd, not_or.mpr ⟨hdouble, hsingle⟩, ?_⟩
  rintro rfl
  simpa using hslash

theorem munchFixed_spelled (h : (munchFixed (c :: cs)).1 ≠ some .error) :
    Spelled (munchFixed (c :: cs)).1 (c :: cs.take (munchFixed (c :: cs)).2) := by
  rcases munchFixed_eq (c :: cs) with ⟨entry, hentry, hfits, heq⟩ | heq
  · obtain ⟨d, ds, htext, -⟩ := punctuator_eq_cons hentry
    have hlength : entry.1.length - 1 = ds.length := by
      rw [← String.length_toList, htext, List.length_cons, Nat.add_sub_cancel]
    rw [htext] at hfits
    obtain ⟨rfl, hds⟩ := List.cons_prefix_cons.mp hfits
    have hspelled : Spelled (some entry.2) (d :: cs.take ds.length) := by
      rw [← List.prefix_iff_eq_take.mp hds, ← htext]
      exact .fixed hentry
    rw [heq, hlength]
    exact hspelled
  · rw [heq] at h
    exact absurd rfl h

/-- The first lexeme of a text is spelled like one of its kind, if it is no error. -/
theorem munch_spelled (h : (munch c cs).1 ≠ some .error) :
    Spelled (munch c cs).1 (c :: cs.take (munch c cs).2) := by
  have hall (p : Char → Bool) : ∀ d ∈ cs.takeWhile p, p d = true := fun d => List.mem_takeWhile_imp
  by_cases hb : isBlank c = true
  · rw [munch_blank hb, take_length_takeWhile]
    exact .blanks hb (hall isBlank)
  by_cases hi : isIdentStart c = true
  · rw [munch_ident hi, take_length_takeWhile]
    exact .ident hi (hall isIdentPart)
  by_cases hd : c.isDigit = true
  · rw [munch_number hd, take_length_takeWhile]
    exact .number hd (hall isNumberPart)
  by_cases hq : c = '"' ∨ c = '\''
  · rw [munch_quote hq] at h ⊢
    cases hclosed : (quoted c cs).2 with
    | false => simp [hclosed] at h
    | true =>
      obtain ⟨body, rest, rfl, hbody, hlength⟩ := chars_of_quoted hclosed
      have hquote : c ≠ '\\' := by rcases hq with rfl | rfl <;> decide
      have htake : (body ++ c :: rest).take (body.length + 1) = body ++ [c] := by
        rw [List.take_length_add_append]
        rfl
      rw [hlength, htake]
      exact .string hq ((quoted_eq_length_iff hquote).mpr ⟨body, hbody, rfl⟩)
  rcases @munch_fixed cs c (by simpa using hb) (by simpa using hi) (by simpa using hd) hq with
    heq | ⟨rfl, ⟨line, rfl⟩ | ⟨body, n, rfl, hn⟩⟩
  · rw [heq] at h ⊢
    exact munchFixed_spelled h
  · rw [munch_line, Nat.add_comm, List.take_succ_cons, take_length_takeWhile]
    exact .line fun d hd => by simpa using List.mem_takeWhile_imp hd
  · obtain ⟨hle, htake⟩ := blockEnd?_take hn
    rw [munch_block hn, Nat.add_comm, List.take_succ_cons]
    exact .block (by rw [htake, List.length_take_of_le hle])

theorem le_length_takeWhile {p : Char → Bool} {ds : List Char} (h : ∀ d ∈ ds, p d = true)
    (hfits : ds <+: cs) : ds.length ≤ (cs.takeWhile p).length := by
  obtain ⟨rest, rfl⟩ := hfits
  rw [List.takeWhile_append_of_pos h, List.length_append]
  exact Nat.le_add_right ..

/-- No text that a pattern matches where a text begins is longer than its first lexeme. -/
theorem length_le_of_spelled {other? : Option TokenKind} {other : List Char}
    (h : Spelled other? other) (hfits : other <+: c :: cs) :
    (munch c cs).1 ≠ some .error ∧ other.length ≤ (munch c cs).2 + 1 := by
  cases h with
  | blanks hc h =>
    obtain ⟨rfl, hds⟩ := List.cons_prefix_cons.mp hfits
    rw [munch_blank hc]
    exact ⟨nofun, Nat.succ_le_succ (le_length_takeWhile h hds)⟩
  | line h =>
    obtain ⟨rfl, hds⟩ := List.cons_prefix_cons.mp hfits
    obtain ⟨later, rfl⟩ := hds
    have hle := le_length_takeWhile (p := (· ≠ '\n')) (fun d hd => decide_eq_true (h d hd))
      (List.prefix_append _ later)
    rw [List.cons_append, munch_line]
    exact ⟨nofun, by simp only [List.length_cons]; omega⟩
  | block h =>
    obtain ⟨rfl, later, rfl⟩ := List.cons_prefix_cons.mp hfits
    rw [List.cons_append, munch_block (blockEnd?_append h)]
    exact ⟨nofun, by simp only [List.length_cons]; omega⟩
  | ident hc h =>
    obtain ⟨rfl, hds⟩ := List.cons_prefix_cons.mp hfits
    rw [munch_ident hc]
    exact ⟨by simp, Nat.succ_le_succ (le_length_takeWhile h hds)⟩
  | number hc h =>
    obtain ⟨rfl, hds⟩ := List.cons_prefix_cons.mp hfits
    rw [munch_number hc]
    exact ⟨by simp, Nat.succ_le_succ (le_length_takeWhile h hds)⟩
  | @string quote ds hq h =>
    obtain ⟨rfl, later, rfl⟩ := List.cons_prefix_cons.mp hfits
    have hquote : quote ≠ '\\' := by rcases hq with rfl | rfl <;> decide
    obtain ⟨body, hbody, rfl⟩ := (quoted_eq_length_iff hquote).mp h
    rw [munch_quote hq, List.append_assoc, List.singleton_append, quoted_of_chars hquote hbody]
    exact ⟨by simp, by simp⟩
  | @fixed entry hentry =>
    obtain ⟨d, ds, htext, hb, hi, hd, hq, hslash⟩ := punctuator_eq_cons hentry
    obtain ⟨rfl, -⟩ := List.cons_prefix_cons.mp (htext ▸ hfits)
    rcases @munch_fixed cs d hb hi hd hq with heq | ⟨rfl, ⟨line, rfl⟩ | ⟨body, n, rfl, hn⟩⟩
    · rw [heq]
      exact length_le_munchFixed hentry hfits
    · have := hslash rfl
      rw [munch_line, htext]
      exact ⟨nofun, by simp only [List.length_cons]; omega⟩
    · have := hslash rfl
      rw [munch_block hn, htext]
      exact ⟨nofun, by simp only [List.length_cons]; omega⟩

/-- A first lexeme that is no error is the longest text that a pattern matches. -/
theorem munch_longest (h : (munch c cs).1 ≠ some .error) :
    Longest (munch c cs).1 (c :: cs.take (munch c cs).2) (c :: cs) where
  begins := List.cons_prefix_cons.mpr ⟨rfl, List.take_prefix ..⟩
  isMatch := matches_iff_spelled.mpr (munch_spelled h)
  longest other? other hother hfits := by
    have hle := (length_le_of_spelled (matches_iff_spelled.mp hother) hfits).2
    have hall := hfits.length_le
    simp only [List.length_cons, List.length_take] at hall ⊢
    omega

/-- An error stands only where no pattern matches. -/
theorem not_matches_of_error (h : (munch c cs).1 = some .error) {other? : Option TokenKind}
    {other : List Char} (hother : Matches other? other) : ¬ other <+: c :: cs :=
  fun hfits => (length_le_of_spelled (matches_iff_spelled.mp hother) hfits).1 h

end munching

end Token

end Adequacy
