import Adequacy.Proofs.TokenPatterns

namespace Adequacy

namespace Token

/-- What is skipped in front of `rest`: blanks, comments up to the next line feed or the end of the
text, and comments up to their first end. -/
inductive Skips : List Char → List Char → Prop where
  | nil {rest : List Char} : Skips [] rest
  | blank {c : Char} {gap rest : List Char} (hc : isBlank c = true) (h : Skips gap rest) :
      Skips (c :: gap) rest
  | line {text gap rest : List Char} (ht : ∀ c ∈ text, c ≠ '\n')
      (he : ∀ c ∈ (gap ++ rest).head?, c = '\n') (h : Skips gap rest) :
      Skips ('/' :: '/' :: (text ++ gap)) rest
  | block {text gap rest : List Char} (ht : ¬ ['*', '/'] <:+: text ++ ['*']) (h : Skips gap rest) :
      Skips ('/' :: '*' :: (text ++ '*' :: '/' :: gap)) rest

/-- Whether a text begins with a token like this. An error stands where no pattern matches. -/
structure Begins (kind : TokenKind) (text cs : List Char) : Prop where
  longest : kind ≠ .error → Longest (some kind) text cs
  unmatched : kind = .error → ∀ other? other, Matches other? other → ¬ other <+: cs

/-- The tokens of a text that begins at offset `pos`, each behind what is skipped. -/
inductive Tiled : Nat → List Char → List Token → Prop where
  | stop {pos : Nat} {gap : List Char} (hg : Skips gap []) :
      Tiled pos gap [⟨.eof, .point (pos + byteSize gap), ""⟩]
  | token {pos next : Nat} {kind : TokenKind} {gap text rest : List Char}
      (hg : Skips gap (text ++ rest)) (hb : Begins kind text (text ++ rest)) (ht : text ≠ [])
      (hn : next = pos + byteSize gap + byteSize text)
      (h : Tiled next rest (list next rest)) :
      Tiled pos (gap ++ (text ++ rest))
        (⟨kind, ⟨pos + byteSize gap, next⟩, String.ofList text⟩ :: list next rest)

section skips

variable {text gap rest cs : List Char}

/-- What ends at the first end of a comment holds no other one. -/
theorem eq_append_of_blockEnd? (h : blockEnd? cs = some cs.length) :
    ∃ text, cs = text ++ ['*', '/'] ∧ ¬ ['*', '/'] <:+: text ++ ['*'] := by
  fun_induction blockEnd? cs with
  | case1 later =>
    obtain rfl : later = [] := by simpa using h
    exact ⟨[], rfl, fun hin => absurd hin.length_le (by decide)⟩
  | case2 c cs hne ih =>
    obtain ⟨m, hm, hlength⟩ := Option.map_eq_some_iff.mp h
    obtain ⟨text, rfl, hno⟩ := ih (by rw [hm]; simpa using hlength)
    refine ⟨c :: text, rfl, fun hin => ?_⟩
    rcases List.infix_cons_iff.mp hin with hstart | hin
    · obtain ⟨rfl, hslash⟩ := List.cons_prefix_cons.mp hstart
      cases text with
      | nil => cases (List.cons_prefix_cons.mp hslash).1
      | cons d text =>
        obtain ⟨rfl, -⟩ := List.cons_prefix_cons.mp hslash
        exact hne _ rfl rfl
    · exact hno hin
  | case3 => cases h

theorem Skips.blanks (ht : ∀ c ∈ text, isBlank c = true) (h : Skips gap rest) :
    Skips (text ++ gap) rest := by
  induction text with
  | nil => exact h
  | cons c cs ih =>
    obtain ⟨hc, hcs⟩ := List.forall_mem_cons.mp ht
    exact .blank hc (ih hcs)

/-- The longest match of a pattern of no kind is skipped. -/
theorem Skips.longest (hl : Longest none text (text ++ (gap ++ rest))) (h : Skips gap rest) :
    Skips (text ++ gap) rest := by
  cases matches_iff_spelled.mp hl.isMatch with
  | blanks hc ht => exact .blanks (List.forall_mem_cons.mpr ⟨hc, ht⟩) h
  | @line line ht =>
    refine .line ht (fun c hc => ?_) h
    -- with one more character that is no line feed there is a longer match
    by_contra hne
    obtain ⟨later, hlater⟩ := List.head?_eq_some_iff.mp hc
    have hmore : Matches none ('/' :: '/' :: (line ++ [c])) := matches_iff_spelled.mpr <|
      .line fun d hd => by
        rcases List.mem_append.mp hd with hd | hd
        · exact ht d hd
        · exact List.mem_singleton.mp hd ▸ hne
    have hle := hl.longest _ _ hmore ⟨later, by rw [hlater]; simp⟩
    simp only [List.length_cons, List.length_append, List.length_nil] at hle
    omega
  | block ht =>
    obtain ⟨body, rfl, hno⟩ := eq_append_of_blockEnd? ht
    have hblock := Skips.block hno h
    simpa using hblock

theorem blockEnd?_append_end (h : ¬ ['*', '/'] <:+: text ++ ['*']) :
    blockEnd? (text ++ '*' :: '/' :: rest) = some (text.length + 2) := by
  induction text with
  | nil => rfl
  | cons c text ih =>
    have hstar : ¬ (c = '*' ∧ ∃ later, text ++ '*' :: '/' :: rest = '/' :: later) := by
      rintro ⟨rfl, later, hlater⟩
      cases text with
      | nil => cases hlater
      | cons d text =>
        cases hlater
        exact h ⟨[], text ++ ['*'], rfl⟩
    rw [List.cons_append, blockEnd?_cons hstar, ih fun hin => h (hin.trans (List.suffix_cons ..).isInfix)]
    rfl

/-- A lookup steps over what is skipped. -/
theorem seek_skips {expected : String} {pos : Nat} (h : Skips gap rest) :
    seek expected pos (gap ++ rest) = seek expected (pos + byteSize gap) rest := by
  induction h generalizing pos with
  | nil => rfl
  | @blank c gap rest hc h ih =>
    rw [List.cons_append, seek_blank _ hc, ih, byteSize_cons, Nat.add_assoc]
  | @line text gap rest ht he h ih =>
    have hline : seek expected pos ('/' :: '/' :: (text ++ (gap ++ rest))) = _ := seek_line ht he
    rw [ih, Nat.add_assoc, ← byteSize_append] at hline
    simpa using hline
  | @block text gap rest ht h ih =>
    have hend : blockEnd? ((text ++ ['*', '/']) ++ (gap ++ rest)) =
        some (text ++ ['*', '/']).length := by
      simpa using @blockEnd?_append_end text (gap ++ rest) ht
    have hblock : seek expected pos ('/' :: '*' :: ((text ++ ['*', '/']) ++ (gap ++ rest))) = _ :=
      seek_block hend
    rw [ih, Nat.add_assoc, ← byteSize_append] at hblock
    simpa using hblock

end skips

theorem Tiled.skip {pos : Nat} {text rest : List Char} {ts : List Token}
    (hl : Longest none text (text ++ rest)) (h : Tiled (pos + byteSize text) rest ts) :
    Tiled pos (text ++ rest) ts := by
  cases h with
  | stop hg =>
    rw [Nat.add_assoc, ← byteSize_append]
    exact .stop (.longest (by simpa using hl) hg)
  | token hg hb ht hn h =>
    have htiled : Tiled pos _ _ := Tiled.token (.longest hl hg) hb ht
      (by rw [hn, byteSize_append, Nat.add_assoc pos]) h
    simpa [Nat.add_assoc] using htiled

theorem begins_munch {c : Char} {cs : List Char} {kind : TokenKind}
    (h : (munch c cs).1 = some kind) :
    Begins kind (c :: cs.take (munch c cs).2) (c :: cs) where
  longest hk := by
    have hl : Longest (munch c cs).1 _ _ := munch_longest (by rw [h]; simpa using hk)
    rwa [h] at hl
  unmatched hk _ _ := not_matches_of_error (by rw [h, hk])

/-- The tokens of a text are those that tile it. -/
theorem tiled_list (pos : Nat) (cs : List Char) : Tiled pos cs (list pos cs) := by
  fun_induction list pos cs with
  | case1 pos => exact .stop .nil
  | case2 pos c cs n text next later kind hm ih =>
    have hsplit : c :: cs = text ++ cs.drop n := by simp [text]
    have hb := begins_munch (congrArg Prod.fst hm)
    rw [hm] at hb
    have htiled : Tiled pos ([] ++ (text ++ cs.drop n)) _ :=
      Tiled.token .nil (hsplit ▸ hb) (by simp [text]) rfl ih
    rw [hsplit]
    exact htiled
  | case3 pos c cs n text next later hm ih =>
    have hsplit : c :: cs = text ++ cs.drop n := by simp [text]
    have hl : Longest (munch c cs).1 _ _ := munch_longest (by rw [hm]; simp)
    rw [hm, hsplit] at hl
    rw [hsplit]
    exact .skip hl ih

/-- The places of what is skipped in front of each token. -/
def gaps (pos : Nat) : List Token → List Span
  | [] => []
  | t :: ts => ⟨pos, t.span.start⟩ :: gaps t.span.stop ts

/-- The token at the end of a source. -/
def ending (source : String) : Token := ⟨.eof, .point source.utf8ByteSize, ""⟩

/-- A token has the text that it covers, and the source goes on with such a token there. -/
structure Stands (source : String) (t : Token) : Prop where
  text : t.span.text? source = some t.text
  nonempty : t.span.start < t.span.stop
  kind_ne : t.kind ≠ .eof
  begins : ∃ cs, charsFrom? source t.span.start = some cs ∧ Begins t.kind t.text.toList cs

/-- The tokens tile a source from an offset on. -/
structure Tiling (source : String) (offset : Nat) (ts : List Token) : Prop where
  ends : ∃ front, ts = front ++ [ending source] ∧ ∀ t ∈ front, Stands source t
  follows : ∀ t ∈ ts, offset ≤ t.span.start
  ordered : ts.Pairwise (·.span.stop ≤ ·.span.start)
  skips : ∀ gap ∈ gaps offset ts, ∃ text rest, gap.text? source = some text ∧
    charsFrom? source gap.stop = some rest ∧ Skips text.toList rest
  covers : charsFrom? source offset = some (((gaps offset ts).zip ts).flatMap fun (gap, t) =>
    (gap.textD source).toList ++ (t.span.textD source).toList)
  resumes : ∀ front t later, ts = front ++ t :: later →
    from? source t.span.stop = some (if later = [] then [t] else later)

section tilings

variable {source : String} {offset pos : Nat} {front cs : List Char} {ts : List Token}

theorem Begins.kind_ne {kind : TokenKind} {text : List Char} (h : Begins kind text cs) :
    kind ≠ .eof := by
  rintro rfl
  have hall : ∀ entry ∈ punctuators, entry.2 ≠ .eof := by decide
  obtain ⟨-, hmatch, -⟩ := h.longest (by decide)
  generalize heq : some TokenKind.eof = kind? at hmatch
  cases matches_iff_spelled.mp hmatch with
  | fixed hentry => exact hall _ hentry (Option.some.inj heq).symm
  | _ => cases heq

theorem text?_middle {as mid bs : List Char} (h : source.toList = as ++ (mid ++ bs)) :
    (⟨byteSize as, byteSize as + byteSize mid⟩ : Span).text? source = some (String.ofList mid) :=
  slice?_eq_some_iff.mpr ⟨as, bs, by simpa using h, rfl, by simp⟩

theorem Tiling.stop {gap : List Char} (hg : Skips gap []) (htext : source.toList = front ++ gap)
    (hpos : byteSize front = pos) :
    Tiling source pos [⟨.eof, .point (pos + byteSize gap), ""⟩] := by
  have hsize : pos + byteSize gap = source.utf8ByteSize := by
    rw [utf8ByteSize_eq_byteSize, htext, byteSize_append, hpos]
  have hgap : (⟨pos, pos + byteSize gap⟩ : Span).text? source = some (String.ofList gap) := by
    rw [← hpos]
    exact @text?_middle source front gap [] (by simpa using htext)
  have hend : charsFrom? source (pos + byteSize gap) = some [] :=
    charsFrom?_eq_some_iff.mpr ⟨front ++ gap, by simpa using htext, by rw [byteSize_append, hpos]⟩
  have hpoint : (Span.point (pos + byteSize gap)).text? source = some "" := by
    rw [← hpos, ← byteSize_append]
    exact @text?_middle source (front ++ gap) [] [] (by simpa using htext)
  refine ⟨⟨[], by rw [ending, hsize]; rfl, nofun⟩, ?_, List.pairwise_singleton .., ?_, ?_, ?_⟩
  · intro t ht
    cases List.mem_singleton.mp ht
    exact Nat.le_add_right ..
  · intro span hspan
    cases List.mem_singleton.mp hspan
    exact ⟨_, [], hgap, hend, by rwa [String.toList_ofList]⟩
  · have hcs : charsFrom? source pos = some gap := charsFrom?_eq_some_iff.mpr ⟨front, htext, hpos⟩
    rw [Span.point] at hpoint
    simp [hcs, gaps, Span.textD, Span.point, hgap, hpoint]
  · intro before t later h
    cases before with
    | nil =>
      obtain ⟨rfl, rfl⟩ := List.cons.inj h
      refine (congrArg (Option.map _) hend).trans ?_
      rw [Option.map_some, list]
      rfl
    | cons u before => cases before <;> cases h

theorem Tiling.token {kind : TokenKind} {gap text rest : List Char} {later : List Token}
    (hg : Skips gap (text ++ rest)) (hb : Begins kind text (text ++ rest)) (ht : text ≠ [])
    (htext : source.toList = front ++ (gap ++ (text ++ rest))) (hpos : byteSize front = pos)
    (hlater : from? source (pos + byteSize gap + byteSize text) = some later)
    (h : Tiling source (pos + byteSize gap + byteSize text) later) :
    Tiling source pos
      (⟨kind, ⟨pos + byteSize gap, pos + byteSize gap + byteSize text⟩, String.ofList text⟩ ::
        later) := by
  have hgap : (⟨pos, pos + byteSize gap⟩ : Span).text? source = some (String.ofList gap) := by
    rw [← hpos]
    exact text?_middle htext
  have htoken : (⟨pos + byteSize gap, pos + byteSize gap + byteSize text⟩ : Span).text? source =
      some (String.ofList text) := by
    rw [← hpos, ← byteSize_append]
    exact @text?_middle source (front ++ gap) text rest (by simpa using htext)
  have hstart : charsFrom? source (pos + byteSize gap) = some (text ++ rest) :=
    charsFrom?_eq_some_iff.mpr ⟨front ++ gap, by simpa using htext, by rw [byteSize_append, hpos]⟩
  have hrest : charsFrom? source (pos + byteSize gap + byteSize text) = some rest :=
    charsFrom?_eq_some_iff.mpr ⟨front ++ gap ++ text, by simpa using htext, by
      rw [byteSize_append, byteSize_append, hpos]⟩
  have hne : 0 < byteSize text := Nat.pos_of_ne_zero fun h => ht (eq_nil_of_byteSize_eq_zero h)
  obtain ⟨tokens, htokens, hstands⟩ := h.ends
  refine ⟨⟨_ :: tokens, by rw [htokens]; rfl, ?_⟩, ?_, ?_, ?_, ?_, ?_⟩
  · refine List.forall_mem_cons.mpr ⟨⟨htoken, by dsimp only; omega, hb.kind_ne, ?_⟩, hstands⟩
    exact ⟨_, hstart, by rwa [String.toList_ofList]⟩
  · refine List.forall_mem_cons.mpr ⟨Nat.le_add_right .., fun t ht => ?_⟩
    have := h.follows t ht
    omega
  · exact List.pairwise_cons.mpr ⟨h.follows, h.ordered⟩
  · refine List.forall_mem_cons.mpr ⟨⟨_, _, hgap, hstart, by rwa [String.toList_ofList]⟩, h.skips⟩
  · have hcs := h.covers
    rw [hrest, Option.some_inj] at hcs
    rw [charsFrom?_eq_some_iff.mpr ⟨front, htext, hpos⟩, gaps, List.zip_cons_cons,
      List.flatMap_cons, ← hcs]
    simp [Span.textD, hgap, htoken]
  · intro before t after heq
    cases before with
    | nil =>
      obtain ⟨rfl, rfl⟩ := List.cons.inj heq
      rw [if_neg (by rw [htokens]; simp)]
      exact hlater
    | cons u before => exact h.resumes before t after (List.cons.inj heq).2

theorem Tiled.tiling (h : Tiled pos cs ts) (htext : source.toList = front ++ cs)
    (hpos : byteSize front = pos) : Tiling source pos ts := by
  induction h generalizing front with
  | stop hg => exact .stop hg htext hpos
  | @token pos next kind gap text rest hg hb ht hn h ih =>
    subst hn
    have htext' : source.toList = (front ++ gap ++ text) ++ rest := by
      rw [htext]
      simp
    have hnext : byteSize (front ++ gap ++ text) = pos + byteSize gap + byteSize text := by
      rw [byteSize_append, byteSize_append, hpos]
    have hlater : from? source (pos + byteSize gap + byteSize text) =
        some (list (pos + byteSize gap + byteSize text) rest) := by
      rw [from?, charsFrom?_eq_some_iff.mpr ⟨_, htext', hnext⟩, Option.map_some]
    exact .token hg hb ht htext hpos hlater (ih htext' hnext)

/-- The tokens from an offset between characters on tile the source. -/
theorem from?_tiles (source : String) (offset : Nat) :
    (isBoundary offset source.toList = false → from? source offset = none) ∧
      (isBoundary offset source.toList = true →
        ∃ ts, from? source offset = some ts ∧ Tiling source offset ts) := by
  constructor
  · intro h
    rw [from?, charsFrom?]
    simp [h]
  · intro h
    obtain ⟨front, cs, htext, hsize⟩ := isBoundary_iff.mp h
    refine ⟨list offset cs, ?_, (tiled_list offset cs).tiling htext hsize⟩
    rw [from?, charsFrom?_eq_some_iff.mpr ⟨front, htext, hsize⟩, Option.map_some]

example : (from? "a /* >> */ >>>= 'c" 1).map (·.map fun t => (t.kind, t.text)) =
    some [(.compoundAssign, ">>>="), (.error, "'c"), (.eof, "")] := by cbv

end tilings

end Token

end Adequacy
