import Adequacy.JsonReader
import Mathlib

namespace Adequacy

namespace JsonReader

variable {α β : Type} {text mid rest : List Char}

/-- A reader reads a value from the front of a text, wherever that stands, and leaves the rest. -/
def Gives (reader : JsonReader α) (text : List Char) (a : α) (rest : List Char) : Prop :=
  ∀ offset, ∃ reached, reader.run ⟨text, offset⟩ = .ok (a, ⟨rest, reached⟩)

def IsBlank (cs : List Char) : Prop := ∀ c ∈ cs, isSpace c = true

/-- A text that continues no number. -/
def Ends (rest : List Char) : Prop :=
  ∀ c ∈ rest.head?, c.isDigit = false ∧ c ≠ '.' ∧ c ≠ 'e' ∧ c ≠ 'E'

section steps

variable {a : α} {b : β}

theorem gives_pure (a : α) (text : List Char) : Gives (pure a) text a text :=
  fun offset => ⟨offset, rfl⟩

theorem Gives.bind {reader : JsonReader α} {next : α → JsonReader β}
    (h : Gives reader text a mid) (hnext : Gives (next a) mid b rest) :
    Gives (reader >>= next) text b rest := by
  intro offset
  obtain ⟨reached, hrun⟩ := h offset
  obtain ⟨reached', hrun'⟩ := hnext reached
  refine ⟨reached', ?_⟩
  rw [StateT.run_bind, hrun]
  exact hrun'

theorem Gives.map_fst_run {reader : JsonReader α} (h : Gives reader text a rest) (offset : Nat) :
    Except.map Prod.fst (reader.run ⟨text, offset⟩) = .ok a := by
  obtain ⟨reached, hrun⟩ := h offset
  rw [hrun]
  rfl

theorem Gives.get {next : JsonCursor → JsonReader β}
    (h : ∀ offset, Gives (next ⟨text, offset⟩) text b rest) : Gives (get >>= next) text b rest :=
  fun offset => h offset offset

theorem Gives.set {cursor : JsonCursor} {next : PUnit → JsonReader β}
    (h : Gives (next ⟨⟩) cursor.rest b rest) : Gives (set cursor >>= next) text b rest :=
  fun _ => h cursor.offset

theorem gives_peek? (text : List Char) : Gives peek? text text.head? text :=
  .get fun _ => gives_pure _ _

theorem gives_next? (c : Char) (rest : List Char) : Gives next? (c :: rest) (some c) rest :=
  .get fun _ => .set (gives_pure _ _)

theorem gives_skip (c : Char) (rest : List Char) : Gives skip (c :: rest) ⟨⟩ rest :=
  (gives_next? c rest).bind (gives_pure _ _)

theorem gives_remaining (text : List Char) : Gives remaining text text.length text :=
  .get fun _ => gives_pure _ _

theorem gives_peekBehindSpace? {blank : List Char} (hblank : IsBlank blank) (text : List Char)
    (h : ∀ c ∈ text.head?, isSpace c = false) :
    Gives peekBehindSpace? (blank ++ text) text.head? text := by
  have hdrop : (blank ++ text).dropWhile isSpace = text := by
    rw [List.dropWhile_append_of_pos hblank]
    cases text with
    | nil => rfl
    | cons c text => rw [List.dropWhile_cons_of_neg (by simp [h c rfl])]
  refine .get fun offset => ?_
  rw [hdrop]
  exact .set (gives_peek? _)

theorem gives_peekBehindSpace?_cons {blank : List Char} {c : Char} (hblank : IsBlank blank)
    (hc : isSpace c = false) (rest : List Char) :
    Gives peekBehindSpace? (blank ++ c :: rest) (some c) (c :: rest) := by
  refine gives_peekBehindSpace? hblank (c :: rest) fun d hd => ?_
  rw [← Option.some.inj hd]
  exact hc

theorem gives_start {blank : List Char} {c : Char} (hblank : IsBlank blank)
    (hc : isSpace c = false) (rest : List Char) :
    Gives start (blank ++ c :: rest) c (c :: rest) :=
  (gives_peekBehindSpace?_cons hblank hc rest).bind (gives_pure _ _)

/-- What is counted in the front of a text is within the bound that a reader sets itself. -/
theorem lt_bound {n : Nat} (h : n ≤ text.length) (rest : List Char) :
    n < (text ++ rest).length + 1 := by
  rw [List.length_append]
  omega

theorem gives_literal (cs rest : List Char) : Gives (literal cs) (cs ++ rest) ⟨⟩ rest := by
  induction cs with
  | nil => exact gives_pure _ _
  | cons c cs ih =>
    refine (gives_next? _ _).bind ?_
    dsimp only
    rw [if_pos rfl]
    exact ih

end steps

section strings

variable {strict : Bool} {fuel : Nat} {read left : List Char} {c : Char} {s : String}

theorem hexValue?_hexDigit : ∀ n < 16, hexValue? (Json.hexDigit n) = some n := by decide

theorem gives_hexEscape {m n : Nat} (hm : m < 16) (hn : n < 16) (rest : List Char) :
    Gives hexEscape ('0' :: '0' :: Json.hexDigit m :: Json.hexDigit n :: rest) (16 * m + n)
      rest := by
  have hvalues : ['0', '0', Json.hexDigit m, Json.hexDigit n].mapM hexValue? =
      some [0, 0, m, n] := by
    simp [hexValue?_hexDigit m hm, hexValue?_hexDigit n hn, show hexValue? '0' = some 0 by decide]
  refine .get fun offset => ?_
  rw [if_neg (by simp)]
  refine .set ?_
  simp only [List.take_succ_cons, List.take_zero, hvalues]
  have hvalue : [0, 0, m, n].foldl (fun n v => 16 * n + v) 0 = 16 * m + n := by simp
  rw [hvalue]
  exact gives_pure _ _

/-- A control character is read from its number. -/
theorem gives_unicodeEscape (strict : Bool) (hc : c.toNat < 32) (rest : List Char) :
    Gives (unicodeEscape strict) ('0' :: '0' :: Json.hexDigit (c.toNat / 16) ::
      Json.hexDigit (c.toNat % 16) :: rest) c rest := by
  have hhex := gives_hexEscape (m := c.toNat / 16) (n := c.toNat % 16) (by omega) (by omega) rest
  have hnumber : 16 * (c.toNat / 16) + c.toNat % 16 = c.toNat := by omega
  rw [hnumber] at hhex
  have hgive : Gives (pure (Char.ofNat c.toNat)) rest c rest := by
    rw [Char.ofNat_toNat]
    exact gives_pure _ _
  refine hhex.bind ?_
  cases strict with
  | false => exact hgive
  | true =>
    rw [if_neg (by decide), if_neg (by omega), if_pos (by omega)]
    exact hgive

theorem gives_stringBody_escaped (hc : Gives (escaped strict) text c rest)
    (h : Gives (stringBody strict fuel (c :: read)) rest s left) :
    Gives (stringBody strict (fuel + 1) read) ('\\' :: text) s left :=
  (gives_next? _ _).bind (hc.bind h)

/-- The letters that name a character behind a backslash, with those characters. -/
def namedEscapes : List (Char × Char) :=
  [('"', '"'), ('\\', '\\'), ('b', '\x08'), ('f', '\x0c'), ('n', '\n'), ('r', '\r'), ('t', '\t')]

/-- A character is written by its letter, by its number, or as it is. -/
theorem escape_cases (c : Char) :
    (∃ letter, (letter, c) ∈ namedEscapes ∧ Json.escape c = ['\\', letter]) ∨
    (c.toNat < 32 ∧ Json.escape c = ['\\', 'u', '0', '0', Json.hexDigit (c.toNat / 16),
      Json.hexDigit (c.toNat % 16)]) ∨
    (c ≠ '"' ∧ c ≠ '\\' ∧ ¬ c.toNat < 32 ∧ Json.escape c = [c]) := by
  unfold Json.escape
  repeat' split
  any_goals
    subst c
    exact .inl ⟨_, by decide, rfl⟩
  next hc => exact .inr (.inl ⟨hc, rfl⟩)
  next hquote hslash _ _ _ _ _ hc => exact .inr (.inr ⟨hquote, hslash, hc, rfl⟩)

theorem gives_escaped {letter : Char} (h : (letter, c) ∈ namedEscapes) :
    Gives (escaped strict) (letter :: rest) c rest := by
  simp only [namedEscapes, List.mem_cons, List.not_mem_nil, or_false, Prod.mk.injEq] at h
  rcases h with h | h | h | h | h | h | h
  all_goals
    obtain ⟨rfl, rfl⟩ := h
    exact (gives_next? _ _).bind (gives_pure _ _)

/-- A character is read as it is written inside a quoted text. -/
theorem gives_stringBody_escape (h : Gives (stringBody strict fuel (c :: read)) rest s left) :
    Gives (stringBody strict (fuel + 1) read) (Json.escape c ++ rest) s left := by
  rcases escape_cases c with ⟨letter, hletter, hc⟩ | ⟨hcontrol, hc⟩ | ⟨hquote, hslash, hplain, hc⟩
  · rw [hc]
    exact gives_stringBody_escaped (gives_escaped hletter) h
  · have hnumber := gives_unicodeEscape strict hcontrol rest
    rw [hc]
    exact gives_stringBody_escaped ((gives_next? _ _).bind hnumber) h
  · rw [hc]
    refine (gives_next? _ _).bind ?_
    split
    next hnone => cases hnone
    next hsome => exact absurd (Option.some.inj hsome) hquote
    next hsome => exact absurd (Option.some.inj hsome) hslash
    next hsome =>
      rw [← Option.some.inj hsome, if_neg hplain]
      exact h

theorem gives_stringBody (strict : Bool) (cs : List Char) (hfuel : cs.length < fuel)
    (read rest : List Char) :
    Gives (stringBody strict fuel read) (cs.flatMap Json.escape ++ '"' :: rest)
      (String.ofList (read.reverse ++ cs)) rest := by
  induction cs generalizing fuel read with
  | nil =>
    cases fuel with
    | zero => cases hfuel
    | succ fuel =>
      rw [List.append_nil]
      exact (gives_next? _ _).bind (gives_pure _ _)
  | cons c cs ih =>
    cases fuel with
    | zero => cases hfuel
    | succ fuel =>
      have hfuel : cs.length < fuel := by simpa using hfuel
      have hlater := ih hfuel (c :: read)
      rw [List.reverse_cons, List.append_assoc, List.singleton_append] at hlater
      rw [List.flatMap_cons, List.append_assoc]
      exact gives_stringBody_escape hlater

theorem length_le_escapes (cs : List Char) : cs.length ≤ (cs.flatMap Json.escape).length := by
  induction cs with
  | nil => exact Nat.le_refl _
  | cons c cs ih =>
    have hc : 0 < (Json.escape c).length := by
      rcases escape_cases c with ⟨_, -, hc⟩ | ⟨-, hc⟩ | ⟨-, -, -, hc⟩ <;> simp [hc]
    rw [List.flatMap_cons, List.length_append, List.length_cons]
    omega

theorem toList_quote (s : String) :
    (Json.quote s).toList = '"' :: (s.toList.flatMap Json.escape ++ ['"']) := by
  simp [Json.quote]

/-- A quoted text is read behind its opening quote. -/
theorem gives_stringRest (strict : Bool) (s : String) (rest : List Char) :
    Gives (stringRest strict) (s.toList.flatMap Json.escape ++ '"' :: rest) s rest := by
  refine (gives_remaining _).bind ?_
  have hbody := gives_stringBody strict s.toList
    (lt_bound (length_le_escapes s.toList) ('"' :: rest)) [] rest
  rwa [List.reverse_nil, List.nil_append, String.ofList_toList] at hbody

end strings

section numbers

variable {n : Nat}

theorem gives_digits {ds : List Char} (hds : ∀ d ∈ ds, d.isDigit = true) (hrest : Ends rest) :
    Gives digits (ds ++ rest) (ds.map fun d => d.toNat - 48) rest := by
  have hnone (p : Char → Bool) (h : ∀ c ∈ rest.head?, p c = false) :
      rest.takeWhile p = [] ∧ rest.dropWhile p = rest := by
    cases rest with
    | nil => exact ⟨rfl, rfl⟩
    | cons c rest =>
      have hc := h c rfl
      exact ⟨List.takeWhile_cons_of_neg (by simp [hc]), List.dropWhile_cons_of_neg (by simp [hc])⟩
  obtain ⟨htake, hdrop⟩ := hnone Char.isDigit fun c hc => (hrest c hc).1
  refine .get fun offset => ?_
  rw [List.takeWhile_append_of_pos hds, List.dropWhile_append_of_pos hds, htake, hdrop,
    List.append_nil]
  exact .set (gives_pure _ _)

theorem le_foldl_digits (n : Nat) (ds : List Nat) : n ≤ ds.foldl (fun n d => 10 * n + d) n := by
  induction ds generalizing n with
  | nil => exact Nat.le_refl _
  | cons d ds ih =>
    have := ih (10 * n + d)
    rw [List.foldl_cons]
    omega

/-- Digits are taken in one by one as long as the number has room. -/
theorem accumulate_eq {ds : List Nat} (h : ds.foldl (fun n d => 10 * n + d) n < 2 ^ 64) :
    accumulate n ds = (ds.foldl (fun n d => 10 * n + d) n, []) := by
  induction ds generalizing n with
  | nil => rfl
  | cons d ds ih =>
    rw [List.foldl_cons] at h ⊢
    have hle := le_foldl_digits (10 * n + d) ds
    rw [accumulate, if_pos (by omega), ih h]

theorem foldl_toDigits (n : Nat) :
    ((Nat.toDigits 10 n).map fun d => d.toNat - 48).foldl (fun n d => 10 * n + d) 0 = n := by
  rw [List.foldl_map]
  exact Nat.ofDigitChars_eq_foldl.symm.trans Nat.ofDigitChars_ten_toDigits

/-- Only zero is written with a zero in front. -/
theorem head?_toDigits_ne (h : 0 < n) : (Nat.toDigits 10 n).head? ≠ some '0' := by
  induction n using Nat.strong_induction_on with
  | _ n ih =>
    by_cases hn : n < 10
    · have hdigit : ∀ d < 10, 0 < d → [d.digitChar].head? ≠ some '0' := by decide
      rw [Nat.toDigits_of_lt_base hn]
      exact hdigit n hn h
    · have hfront := ih (n / 10) (by omega) (by omega)
      rw [Nat.toDigits_of_base_le (by decide) (by omega), List.head?_append]
      cases hdigits : Nat.toDigits 10 (n / 10) with
      | nil => exact absurd hdigits Nat.toDigits_ne_nil
      | cons d ds =>
        rw [hdigits] at hfront
        exact hfront

theorem toDigits_eq_cons (n : Nat) : ∃ d ds, Nat.toDigits 10 n = d :: ds ∧ d.isDigit = true := by
  have hall : ∀ d ∈ Nat.toDigits 10 n, d.isDigit = true :=
    fun d hd => Nat.isDigit_of_mem_toDigits (by decide) (by decide) hd
  cases hdigits : Nat.toDigits 10 n with
  | nil => exact absurd hdigits Nat.toDigits_ne_nil
  | cons d ds => exact ⟨d, ds, rfl, hall d (by rw [hdigits]; exact List.mem_cons_self)⟩

theorem ne_of_isDigit {c d : Char} (hd : d.isDigit = true) (hc : c.isDigit = false) : d ≠ c := by
  rintro rfl
  rw [hc] at hd
  cases hd

theorem isSpace_of_isDigit {d : Char} (hd : d.isDigit = true) : isSpace d = false := by
  simp only [isSpace, Bool.or_eq_false_iff, beq_eq_false_iff_ne]
  exact ⟨⟨⟨ne_of_isDigit hd (by decide), ne_of_isDigit hd (by decide)⟩,
    ne_of_isDigit hd (by decide)⟩, ne_of_isDigit hd (by decide)⟩

theorem gives_fraction (strict : Bool) (n : Nat) (hrest : Ends rest) :
    Gives (fraction strict false n 0 false) rest (.whole n) rest := by
  refine (gives_peek? rest).bind ?_
  split
  next h => exact absurd rfl (hrest _ h).2.1
  next h => exact absurd rfl (hrest _ h).2.2.1
  next h => exact absurd rfl (hrest _ h).2.2.2
  next => exact gives_pure _ _

/-- A whole number is read from its digits. -/
theorem gives_number (strict : Bool) (h : n < 2 ^ 64) (hrest : Ends rest) :
    Gives (number strict false) (Nat.toDigits 10 n ++ rest) (.whole n) rest := by
  have hall : ∀ d ∈ Nat.toDigits 10 n, d.isDigit = true :=
    fun d hd => Nat.isDigit_of_mem_toDigits (by decide) (by decide) hd
  have hvalue := foldl_toDigits n
  refine (gives_peek? _).bind ?_
  rcases Nat.eq_zero_or_pos n with rfl | hpos
  · rw [Nat.toDigits_zero]
    refine (gives_skip _ _).bind ((gives_peek? _).bind ?_)
    split
    next d hd =>
      rw [(hrest d hd).1]
      exact gives_fraction strict 0 hrest
    next => exact gives_fraction strict 0 hrest
  · obtain ⟨d, ds, htext, hd⟩ := toDigits_eq_cons n
    have hne := head?_toDigits_ne hpos
    have hdigits := gives_digits hall hrest
    rw [htext] at hvalue hne hdigits ⊢
    split
    next hnone => cases hnone
    next hzero => exact absurd hzero hne
    next hsome =>
      rw [← Option.some.inj hsome, if_pos hd]
      refine hdigits.bind ?_
      rw [accumulate_eq (by omega), hvalue]
      exact gives_fraction strict n hrest

end numbers

end JsonReader

end Adequacy
