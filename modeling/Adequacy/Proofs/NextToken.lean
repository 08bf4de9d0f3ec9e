import Adequacy.Proofs.TokenTiling
import Mathlib

namespace Adequacy

namespace Token

/-- What a lookup steps over in front of `rest`: what is skipped, and closing parentheses. -/
inductive Crosses : List Char → List Char → Prop where
  | skip {gap rest : List Char} (h : Skips gap rest) : Crosses gap rest
  | paren {gap later rest : List Char} (hg : Skips gap (')' :: (later ++ rest)))
      (h : Crosses later rest) : Crosses (gap ++ ')' :: later) rest

/-- The tokens go on with one that is spelled as expected, behind closing parentheses that are
not. -/
def Reaches (expected : String) (ts : List Token) (t : Token) : Prop :=
  ∃ parens later, ts = parens ++ t :: later ∧
    (∀ p ∈ parens, p.kind = .rParen ∧ p.text ≠ expected) ∧ t.text = expected

/-- Whether a lookup goes no further than a token. -/
def isLast (expected : String) (t : Token) : Bool := t.text == expected || t.kind != .rParen

section spellings

variable {kind : TokenKind} {text cs : List Char}

theorem Begins.eq_paren (h : Begins .rParen text cs) : text = [')'] := by
  have hone : ∀ entry ∈ punctuators, entry.2 = .rParen → entry.1.toList = [')'] := by decide
  have hmatch := (h.longest (by decide)).isMatch
  generalize heq : some TokenKind.rParen = kind? at hmatch
  cases matches_iff_spelled.mp hmatch with
  | fixed hentry => exact hone _ hentry (Option.some.inj heq).symm
  | _ => cases heq

theorem Begins.kind_eq_rParen (h : Begins kind (')' :: text) cs) (hpre : ')' :: text <+: cs) :
    kind = .rParen := by
  have hparen : Matches (some .rParen) [')'] :=
    matches_iff_spelled.mpr (.fixed (show (")", .rParen) ∈ punctuators by decide))
  by_cases herror : kind = .error
  · have hfits : [')'] <+: cs := (List.prefix_append [')'] text).trans hpre
    exact absurd hfits (h.unmatched herror _ _ hparen)
  · have hone : ∀ entry ∈ punctuators, entry.1.toList.head? = some ')' → entry.2 = .rParen := by
      decide
    have hmatch := (h.longest herror).isMatch
    generalize htext : ')' :: text = spelling at hmatch
    generalize hkind : some kind = kind? at hmatch
    cases matches_iff_spelled.mp hmatch with
    | fixed hentry =>
      rw [Option.some.inj hkind]
      exact hone _ hentry (htext ▸ rfl)
    | ident hc =>
      cases htext
      exact absurd hc (by decide)
    | number hc =>
      cases htext
      exact absurd hc (by decide)
    | string hq =>
      cases htext
      exact absurd hq (by decide)
    | _ => cases hkind

end spellings

section lookups

variable {expected : String} {pos : Nat} {cs : List Char} {s : Span} {t : Token}

theorem isLast_iff : isLast expected t = true ↔ t.text = expected ∨ t.kind ≠ .rParen := by
  simp [isLast]

theorem not_isLast_iff : (!isLast expected t) = true ↔ t.kind = .rParen ∧ t.text ≠ expected := by
  simp [isLast, and_comm]

theorem find?_isLast {parens later : List Token}
    (hp : ∀ p ∈ parens, p.kind = .rParen ∧ p.text ≠ expected)
    (ht : t.text = expected ∨ t.kind ≠ .rParen) :
    (parens ++ t :: later).find? (isLast expected) = some t :=
  List.find?_eq_some_iff_append.mpr ⟨isLast_iff.mpr ht, parens, later, rfl,
    fun p hmem => not_isLast_iff.mpr (hp p hmem)⟩

/-- Among the tokens that follow a lookup takes the last one that it goes to, if that is spelled as
expected. -/
theorem seek_eq_find? (he : expected ≠ "") (pos : Nat) (cs : List Char) : seek expected pos cs =
    (((list pos cs).find? (isLast expected)).filter (·.text = expected)).map (·.span) := by
  have hlast {t : Token} {later : List Token} (h : t.text = expected ∨ t.kind ≠ .rParen) :
      (((t :: later).find? (isLast expected)).filter (·.text = expected)).map (·.span) =
        if t.text = expected then some t.span else none := by
    rw [show t :: later = [] ++ t :: later from rfl, find?_isLast (by simp) h]
    by_cases ht : t.text = expected <;> simp [ht]
  fun_induction seek expected pos cs with
  | case1 pos =>
    rw [list, hlast (.inr (show TokenKind.eof ≠ .rParen by decide))]
    exact (if_neg he.symm).symm
  | case2 pos c cs n text next hm ih =>
    rw [list, hm]
    exact ih
  | case3 pos c cs n text next kind htext hm =>
    rw [list, hm]
    exact ((hlast (.inl htext)).trans (if_pos htext)).symm
  | case4 pos c cs n text next htext hm ih =>
    rw [list, hm]
    dsimp only
    rw [List.find?_cons_of_neg fun h => (isLast_iff.mp h).elim htext fun hk => hk rfl]
    exact ih
  | case5 pos c cs n text kind htext hk hm =>
    rw [list, hm]
    exact ((hlast (.inr hk)).trans (if_neg htext)).symm

theorem seek_eq_some_iff (he : expected ≠ "") : seek expected pos cs = some s ↔
    ∃ t, Reaches expected (list pos cs) t ∧ t.span = s := by
  rw [seek_eq_find? he, Option.map_eq_some_iff]
  refine exists_congr fun t => and_congr_left fun _ => ?_
  rw [Option.filter_eq_some_iff, decide_eq_true_eq]
  constructor
  · rintro ⟨hfind, htext⟩
    obtain ⟨-, parens, later, hsplit, hparens⟩ := List.find?_eq_some_iff_append.mp hfind
    exact ⟨parens, later, hsplit, fun p hmem => not_isLast_iff.mp (hparens p hmem), htext⟩
  · rintro ⟨parens, later, hsplit, hparens, htext⟩
    exact ⟨hsplit ▸ find?_isLast hparens (.inl htext), htext⟩

/-- Another token behind the parentheses ends a lookup. -/
theorem seek_eq_none {parens later : List Token} (he : expected ≠ "")
    (h : list pos cs = parens ++ t :: later)
    (hp : ∀ p ∈ parens, p.kind = .rParen ∧ p.text ≠ expected) (hk : t.kind ≠ .rParen)
    (ht : t.text ≠ expected) : seek expected pos cs = none := by
  rw [seek_eq_find? he, h, find?_isLast hp (.inr hk), Option.filter_some_neg (by simpa using ht)]
  rfl

theorem Crosses.longest {text gap rest : List Char}
    (hl : Longest none text (text ++ (gap ++ rest))) (h : Crosses gap rest) :
    Crosses (text ++ gap) rest := by
  cases h with
  | skip h => exact .skip (.longest hl h)
  | @paren gap later _ hg h =>
    rw [← List.append_assoc]
    exact .paren (.longest (by simpa using hl) hg) h

/-- In front of the token that is found a lookup steps over what is skipped and over parentheses. -/
theorem exists_crosses_of_seek (h : seek expected pos cs = some s) :
    ∃ gap rest, cs = gap ++ rest ∧ s.start = pos + byteSize gap ∧ Crosses gap rest := by
  fun_induction seek expected pos cs with
  | case1 => cases h
  | case2 pos c cs n text next hm ih =>
    obtain ⟨gap, rest, hdrop, hstart, hcross⟩ := ih h
    have hsplit : c :: cs = text ++ (gap ++ rest) := by rw [← hdrop]; simp [text]
    have hl : Longest (munch c cs).1 _ _ := munch_longest (by rw [hm]; simp)
    rw [hm, hsplit] at hl
    refine ⟨text ++ gap, rest, by rw [hsplit, List.append_assoc], ?_, .longest hl hcross⟩
    rw [hstart, byteSize_append, Nat.add_assoc]
  | case3 pos c cs n text next kind htext hm =>
    cases h
    exact ⟨[], _, rfl, rfl, .skip .nil⟩
  | case4 pos c cs n text next htext hm ih =>
    obtain ⟨gap, rest, hdrop, hstart, hcross⟩ := ih h
    have hb := begins_munch (congrArg Prod.fst hm)
    have hparen : text = [')'] := by
      rw [hm] at hb
      exact hb.eq_paren
    have hsplit : c :: cs = [')'] ++ (gap ++ rest) := by rw [← hparen, ← hdrop]; simp [text]
    refine ⟨')' :: gap, rest, hsplit, ?_, @Crosses.paren [] gap rest .nil hcross⟩
    rw [hstart, ← List.singleton_append, byteSize_append, ← hparen, Nat.add_assoc]
  | case5 => cases h

theorem from?_eq_some_iff {source : String} {offset : Nat} {ts : List Token} :
    from? source offset = some ts ↔ ∃ front cs, source.toList = front ++ cs ∧
      byteSize front = offset ∧ list offset cs = ts := by
  rw [from?, Option.map_eq_some_iff]
  constructor
  · rintro ⟨cs, hcs, rfl⟩
    obtain ⟨front, htext, hsize⟩ := charsFrom?_eq_some_iff.mp hcs
    exact ⟨front, cs, htext, hsize, rfl⟩
  · rintro ⟨front, cs, htext, hsize, rfl⟩
    exact ⟨cs, charsFrom?_eq_some_iff.mpr ⟨front, htext, hsize⟩, rfl⟩

theorem Tiling.stands {source : String} {offset : Nat} {ts : List Token} (h : Tiling source offset ts)
    (ht : t ∈ ts) (hne : t.text ≠ "") : Stands source t := by
  obtain ⟨front, rfl, hfront⟩ := h.ends
  rcases List.mem_append.mp ht with ht | ht
  · exact hfront t ht
  · obtain rfl := List.mem_singleton.mp ht
    exact absurd rfl hne

theorem Stands.text_eq {source : String} (h : Stands source t) (hk : t.kind = .rParen) :
    t.text.toList = [')'] := by
  obtain ⟨cs, -, hb⟩ := h.begins
  rw [hk] at hb
  exact hb.eq_paren

/-- No other token begins with a closing parenthesis. -/
theorem Stands.kind_eq {source : String} {later : List Char} (h : Stands source t)
    (ht : t.text.toList = ')' :: later) : t.kind = .rParen := by
  obtain ⟨cs, hcs, hb⟩ := h.begins
  obtain ⟨as, bs, hsource, hsize, -⟩ := slice?_eq_some_iff.mp h.text
  obtain ⟨as', hsource', hsize'⟩ := charsFrom?_eq_some_iff.mp hcs
  rw [List.append_assoc] at hsource
  obtain ⟨-, rfl⟩ :=
    append_inj_of_byteSize_eq (hsource.symm.trans hsource') (hsize.trans hsize'.symm)
  rw [ht] at hb
  exact hb.kind_eq_rParen (ht ▸ List.prefix_append _ _)

/-- Where a longer token stands behind closing parentheses, a lookup does not stop at one of them. -/
theorem Tiling.apart_of_prefix {source : String} {offset : Nat} {parens later : List Token}
    (h : Tiling source offset (parens ++ t :: later)) (he : expected ≠ "")
    (hp : ∀ p ∈ parens, p.kind = .rParen) (hpre : expected.toList <+: t.text.toList)
    (ht : t.text ≠ expected) : t.kind ≠ .rParen ∧ ∀ p ∈ parens, p.text ≠ expected := by
  obtain ⟨c, cs, hchars⟩ := List.exists_cons_of_ne_nil (mt String.toList_eq_nil_iff.mp he)
  have hne : t.text ≠ "" := by
    rintro hempty
    rw [hempty, hchars] at hpre
    exact absurd (List.prefix_nil.mp hpre) nofun
  have hstands := h.stands (List.mem_append_right _ (.head _)) hne
  have hk : t.kind ≠ .rParen := by
    intro hk
    have hparen := hstands.text_eq hk
    rw [hparen, hchars, List.cons_prefix_cons, List.prefix_nil] at hpre
    obtain ⟨rfl, rfl⟩ := hpre
    exact ht (String.toList_inj.mp (hparen.trans hchars.symm))
  refine ⟨hk, fun p hmem hspelled => hk ?_⟩
  have hparen := (h.stands (List.mem_append_left _ hmem) (hspelled ▸ he)).text_eq (hp p hmem)
  obtain ⟨more, hmore⟩ := hpre
  rw [← hspelled, hparen] at hmore
  exact hstands.kind_eq hmore.symm

end lookups

/-- A lookup finds the next token behind closing parentheses, and only if that is spelled as
expected. In front of it there is nothing else but what is skipped. Behind another token, and where
a longer one stands, nothing is found. -/
theorem find?_eq_next (source : String) (offset : Nat) {expected : String} (he : expected ≠ "") :
    (∀ s, find? source offset expected = some s ↔ isBoundary offset source.toList = true ∧
      ∃ ts t, from? source offset = some ts ∧ Reaches expected ts t ∧ t.span = s) ∧
    (∀ ts t, from? source offset = some ts → Reaches expected ts t →
      Stands source t ∧ offset ≤ t.span.start ∧ ∃ gap rest,
        (⟨offset, t.span.start⟩ : Span).text? source = some gap ∧
        charsFrom? source t.span.start = some rest ∧ Crosses gap.toList rest) ∧
    ∀ parens t later, from? source offset = some (parens ++ t :: later) →
      (∀ p ∈ parens, p.kind = .rParen) → t.text ≠ expected →
        (t.kind ≠ .rParen ∧ ∀ p ∈ parens, p.text ≠ expected) ∨
          expected.toList <+: t.text.toList →
        find? source offset expected = none := by
  have hseek {front cs : List Char} (htext : source.toList = front ++ cs)
      (hsize : byteSize front = offset) :
      find? source offset expected = seek expected offset cs := by
    rw [find?, charsFrom?_eq_some_iff.mpr ⟨front, htext, hsize⟩, Option.bind_some]
  refine ⟨fun s => ?_, fun ts t hts hreach => ?_, fun parens t later hts hparens ht hother => ?_⟩
  · rw [find?_eq_some_iff]
    constructor
    · rintro ⟨front, cs, htext, hsize, h⟩
      obtain ⟨t, hreach, hs⟩ := (seek_eq_some_iff he).mp h
      exact ⟨isBoundary_iff.mpr ⟨front, cs, htext, hsize⟩, _, t,
        from?_eq_some_iff.mpr ⟨front, cs, htext, hsize, rfl⟩, hreach, hs⟩
    · rintro ⟨-, ts, t, hts, hreach, hs⟩
      obtain ⟨front, cs, htext, hsize, rfl⟩ := from?_eq_some_iff.mp hts
      exact ⟨front, cs, htext, hsize, (seek_eq_some_iff he).mpr ⟨t, hreach, hs⟩⟩
  · obtain ⟨front, cs, htext, hsize, rfl⟩ := from?_eq_some_iff.mp hts
    have htiling : Tiling source offset _ := (tiled_list offset cs).tiling htext hsize
    have hmem : t ∈ list offset cs := by
      obtain ⟨parens, later, hsplit, -⟩ := hreach
      rw [hsplit]
      simp
    obtain ⟨-, -, -, -, hspelled⟩ := id hreach
    refine ⟨htiling.stands hmem (hspelled ▸ he), htiling.follows t hmem, ?_⟩
    obtain ⟨gap, rest, rfl, hstart, hcross⟩ :=
      exists_crosses_of_seek ((seek_eq_some_iff he).mpr ⟨t, hreach, rfl⟩)
    subst hsize
    refine ⟨String.ofList gap, rest, ?_, ?_, by rwa [String.toList_ofList]⟩
    · rw [hstart]
      exact text?_middle htext
    · refine charsFrom?_eq_some_iff.mpr ⟨front ++ gap, by rw [htext, List.append_assoc], ?_⟩
      rw [hstart, byteSize_append]
  · obtain ⟨front, cs, htext, hsize, hlist⟩ := from?_eq_some_iff.mp hts
    have htiling : Tiling source offset _ := hlist ▸ (tiled_list offset cs).tiling htext hsize
    rw [hseek htext hsize]
    obtain ⟨hk, hspelled⟩ := hother.elim id fun hpre => htiling.apart_of_prefix he hparens hpre ht
    exact seek_eq_none he hlist (fun p hp => ⟨hparens p hp, hspelled p hp⟩) hk ht

/-- An assignment operator behind closing parentheses and a comment. -/
def parenthesized : String := "((a) /* + */) += b"

def closings : List Token := [⟨.rParen, ⟨3, 4⟩, ")"⟩, ⟨.rParen, ⟨12, 13⟩, ")"⟩]

def increase : Token := ⟨.compoundAssign, ⟨14, 16⟩, "+="⟩

theorem from?_parenthesized : from? parenthesized 3 =
    some (closings ++ increase :: [⟨.ident, ⟨17, 18⟩, "b"⟩, ⟨.eof, ⟨18, 18⟩, ""⟩]) := by cbv

theorem find?_eq_next_of_parenthesized : "+=" ≠ "" ∧ "+" ≠ "" ∧
    find? parenthesized 3 "+=" = some ⟨14, 16⟩ ∧ find? parenthesized 3 "+" = none ∧
    ∃ rest, Crosses ") /* + */) ".toList rest := by
  have hparens : ∀ p ∈ closings, p.kind = .rParen ∧ p.text ≠ "+=" := by decide
  obtain ⟨hfound, hstands, -⟩ := find?_eq_next parenthesized 3 (show "+=" ≠ "" by decide)
  obtain ⟨-, -, hnone⟩ := find?_eq_next parenthesized 3 (show "+" ≠ "" by decide)
  refine ⟨by decide, by decide, (hfound _).mpr ⟨by cbv, _, increase, from?_parenthesized,
    ⟨closings, _, rfl, hparens, rfl⟩, rfl⟩, hnone _ _ _ from?_parenthesized
    (fun p hp => (hparens p hp).1) (by decide) (.inr (by decide)), ?_⟩
  obtain ⟨-, -, gap, rest, hgap, -, hcross⟩ :=
    hstands _ increase from?_parenthesized ⟨closings, _, rfl, hparens, rfl⟩
  have htext : (⟨3, 14⟩ : Span).text? parenthesized = some ") /* + */) " := by cbv
  exact ⟨rest, Option.some.inj (hgap.symm.trans htext) ▸ hcross⟩

end Token

end Adequacy
