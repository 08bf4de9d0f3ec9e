import Adequacy.Proofs.Removal

namespace Adequacy

namespace Insertion

variable {source : String} {pos offset : Nat} {cs : List Char} {is js : List Insertion}

/-- The last offset that a text is recorded for. -/
def furthest (is : List Insertion) : Nat := (is.map (·.offset)).foldr max 0

/-- A text that begins at offset `pos`, with what is recorded for the place of each character in
front of it. Behind it stands what is recorded for its end and for the places past that, one place
after the other. -/
def placed (is : List Insertion) (pos : Nat) : List Char → List Char
  | [] => (List.range' pos (furthest is + 1 - pos)).flatMap (textsAt is)
  | c :: cs => textsAt is pos ++ c :: placed is (pos + c.utf8Size) cs

theorem le_furthest {i : Insertion} (h : i ∈ is) : i.offset ≤ furthest is := by
  induction is with
  | nil => cases h
  | cons j is ih =>
    have hcons : furthest (j :: is) = max j.offset (furthest is) := rfl
    rcases List.mem_cons.mp h with rfl | h
    · omega
    · have := ih h
      omega

section past

/-- What is recorded from an offset on is what is recorded for it and behind it. -/
theorem filter_le_of_ordered (hs : is.Pairwise (·.offset ≤ ·.offset)) (offset : Nat) :
    is.filter (offset ≤ ·.offset) =
      is.filter (·.offset = offset) ++ is.filter (offset + 1 ≤ ·.offset) := by
  induction is with
  | nil => rfl
  | cons i is ih =>
    obtain ⟨hlater, hs⟩ := List.pairwise_cons.mp hs
    rcases Nat.lt_trichotomy i.offset offset with hlt | heq | hgt
    · rw [List.filter_cons_of_neg (by simpa using hlt), List.filter_cons_of_neg (by simp; omega),
        List.filter_cons_of_neg (by simp; omega), ih hs]
    · rw [List.filter_cons_of_pos (by simp [heq]), List.filter_cons_of_pos (by simpa using heq),
        List.filter_cons_of_neg (by simp; omega), ih hs, List.cons_append]
    · have hnone : is.filter (·.offset = offset) = [] :=
        List.filter_eq_nil_iff.mpr fun j hj h => by
          have := hlater j hj
          have := of_decide_eq_true h
          omega
      rw [List.filter_cons_of_pos (by simp; omega), List.filter_cons_of_neg (by simp; omega),
        List.filter_cons_of_pos (by simpa using hgt), ih hs, hnone]
      rfl

/-- Ordered insertions past an offset are those of one offset after the other. -/
theorem flatMap_range'_textsAt (hs : is.Pairwise (·.offset ≤ ·.offset)) {count : Nat}
    (h : ∀ i ∈ is, i.offset < offset + count) :
    (List.range' offset count).flatMap (textsAt is) =
      (is.filter (offset ≤ ·.offset)).flatMap (·.text.toList) := by
  induction count generalizing offset with
  | zero =>
    have hnone : is.filter (offset ≤ ·.offset) = [] :=
      List.filter_eq_nil_iff.mpr fun i hi hle => by
        have := h i hi
        have := of_decide_eq_true hle
        omega
    rw [hnone]
    rfl
  | succ count ih =>
    rw [List.range'_succ, List.flatMap_cons, filter_le_of_ordered hs, List.flatMap_append,
      ih fun i hi => by have := h i hi; omega, textsAt_eq_filter]

end past

section settled

/-- An insertion past the end of a text counts as one at its end. -/
def clamp (size : Nat) (i : Insertion) : Insertion := { i with offset := min i.offset size }

/-- Ordered insertions that all lie in a source. -/
def settled (source : String) (is : List Insertion) : List Insertion :=
  (inOrder is).map (clamp source.utf8ByteSize)

theorem pairwise_settled (source : String) (is : List Insertion) :
    (settled source is).Pairwise (·.offset ≤ ·.offset) := by
  refine List.pairwise_map.mpr ((pairwise_inOrder is).imp fun {i j} h => ?_)
  simp only [clamp]
  omega

theorem inOrder_settled (source : String) (is : List Insertion) :
    inOrder (settled source is) = settled source is :=
  List.mergeSort_of_pairwise ((pairwise_settled source is).imp fun h => decide_eq_true h)

theorem render?_settled (source : String) (is : List Insertion) :
    render? source (settled source is) = render? source is := by
  have hclamp : (settled source is).map (clamp source.utf8ByteSize) = settled source is := by
    simp [settled, clamp]
  have hrender (js : List Insertion) : render? source js =
      (weave source.toList 0 ((inOrder js).map (clamp source.utf8ByteSize))).map String.ofList := rfl
  rw [hrender, inOrder_settled, hclamp, hrender]
  rfl

theorem isBoundary_settled
    (h : ∀ i ∈ is, isBoundary (min i.offset source.utf8ByteSize) source.toList = true) :
    ∀ i ∈ settled source is, isBoundary i.offset source.toList = true := by
  intro i hi
  obtain ⟨j, hj, rfl⟩ := List.mem_map.mp hi
  exact h j ((inOrder_perm is).mem_iff.mp hj)

theorem textsAt_clamp_of_lt {size : Nat} (ho : offset < size) :
    textsAt (is.map (clamp size)) offset = textsAt is offset := by
  rw [textsAt, List.flatMap_map]
  refine List.flatMap_congr fun i _ => ?_
  have hiff : min i.offset size = offset ↔ i.offset = offset := by omega
  simp only [clamp, hiff]

theorem textsAt_clamp_self {size : Nat} : textsAt (is.map (clamp size)) size =
    (is.filter (size ≤ ·.offset)).flatMap (·.text.toList) := by
  induction is with
  | nil => rfl
  | cons i is ih =>
    have hcons : textsAt ((i :: is).map (clamp size)) size =
        (if min i.offset size = size then i.text.toList else []) ++
          textsAt (is.map (clamp size)) size := rfl
    rw [hcons, ih]
    by_cases hle : size ≤ i.offset
    · rw [if_pos (Nat.min_eq_right hle), List.filter_cons_of_pos (by simpa using hle)]
      rfl
    · rw [if_neg (by omega), List.filter_cons_of_neg (by simpa using hle)]
      rfl

/-- Settled insertions put the texts where they are recorded, those past the end in their order. -/
theorem woven_settled (h : pos + byteSize cs = source.utf8ByteSize) :
    woven (settled source is) pos cs = placed is pos cs := by
  induction cs generalizing pos with
  | nil =>
    have hall : ∀ i ∈ inOrder is, i.offset < pos + (furthest is + 1 - pos) := fun i hi => by
      have := le_furthest ((inOrder_perm is).mem_iff.mp hi)
      omega
    have hpast := flatMap_range'_textsAt (pairwise_inOrder is) hall
    rw [List.flatMap_congr fun o _ => textsAt_inOrder is o] at hpast
    rw [woven, placed, hpast, settled, ← h]
    exact textsAt_clamp_self
  | cons c cs ih =>
    have hc := c.utf8Size_pos
    rw [byteSize_cons] at h
    have htexts : textsAt (settled source is) pos = textsAt is pos := by
      rw [settled, textsAt_clamp_of_lt (by omega), textsAt_inOrder]
    rw [woven, placed, htexts, ih (by omega)]

end settled

/-- An insertion inside a character is not made. -/
theorem weave_eq_none (hs : is.Pairwise (·.offset ≤ ·.offset)) (hpos : ∀ i ∈ is, pos ≤ i.offset)
    {i : Insertion} (hi : i ∈ is) (h : isBoundary (i.offset - pos) cs = false) :
    weave cs pos is = none := by
  induction is generalizing pos cs with
  | nil => cases hi
  | cons j later ih =>
    obtain ⟨hlater, hs⟩ := List.pairwise_cons.mp hs
    have hj := hpos j List.mem_cons_self
    rw [weave]
    split
    next hlt =>
      dsimp only
      split
      next hb =>
        rcases List.mem_cons.mp hi with rfl | hi
        · rw [hb] at h
          cases h
        · obtain ⟨as, bs, rfl, hsize⟩ := isBoundary_iff.mp hb
          have hrest : isBoundary (i.offset - j.offset) bs = false := by
            have hle := hlater i hi
            by_contra hne
            obtain ⟨mid, bs, rfl, hmid⟩ := isBoundary_iff.mp (by simpa using hne)
            have hback := isBoundary_middle as mid bs
            rw [List.append_assoc, show byteSize as + byteSize mid = i.offset - pos by omega,
              h] at hback
            cases hback
          rw [← hsize, dropBytes_byteSize_append, ih hs hlater hi hrest]
          rfl
      next => rfl
    next hle =>
      have heq : j.offset = pos := by omega
      rcases List.mem_cons.mp hi with rfl | hi
      · have hstart := isBoundary_byteSize_append [] cs
        rw [heq, Nat.sub_self] at h
        rw [byteSize_nil, List.nil_append, h] at hstart
        cases hstart
      · rw [ih hs (fun k hk => heq ▸ hlater k hk) hi h]
        rfl

/-- The order of insertions matters for those at one offset alone. -/
theorem render?_of_perm (hperm : js.Perm is)
    (h : ∀ o, js.filter (·.offset = o) = is.filter (·.offset = o)) :
    render? source js = render? source is := by
  have hsame (is : List Insertion) (o : Nat) :
      (inOrder is).filter (·.offset = o) = is.filter (·.offset = o) := by
    refine filter_mergeSort notAfter_trans notAfter_total
      (List.pairwise_of_forall_mem_list fun a ha b hb => ?_)
    have ha := of_decide_eq_true (List.mem_filter.mp ha).2
    have hb := of_decide_eq_true (List.mem_filter.mp hb).2
    exact decide_eq_true (by omega)
  have hoffsets : (inOrder js).map (·.offset) = (inOrder is).map (·.offset) := by
    have hall : ((inOrder js).map (·.offset)).Perm ((inOrder is).map (·.offset)) :=
      ((inOrder_perm js).trans (hperm.trans (inOrder_perm is).symm)).map _
    refine List.Perm.eq_of_pairwise (fun a b _ _ (hab : a ≤ b) hba => Nat.le_antisymm hab hba)
      ?_ ?_ hall
    · exact List.pairwise_map.mpr (pairwise_inOrder js)
    · exact List.pairwise_map.mpr (pairwise_inOrder is)
  have horder : inOrder js = inOrder is :=
    eq_of_filter_eq hoffsets fun o => by rw [hsame, hsame, h]
  rw [render?, render?, horder]

theorem delta_removals (shift : Nat) (is : List Insertion) :
    (removals shift is).delta = -(((is.map (·.text.utf8ByteSize)).sum : Nat) : Int) := by
  induction is generalizing shift with
  | nil => rfl
  | cons i later ih =>
    simp only [removals, Patch.delta, ih, Edit.delta, Span.length, List.map_cons, List.sum_cons,
      String.utf8ByteSize_empty]
    omega

/-- Rendering puts the texts in front of the characters that they are recorded for, in the order of
recording, and those past the end behind all of them, by their offsets. Without the texts the source
is left, and nothing else adds to the length. Texts for different offsets can be recorded in any
order. If a text falls into a character nothing is rendered. -/
theorem render?_places (source : String) (is : List Insertion) :
    ((∀ i ∈ is, isBoundary (min i.offset source.utf8ByteSize) source.toList = true) →
      ∃ text, render? source is = some text ∧ text.toList = placed is 0 source.toList ∧
        Patch.apply (removals 0 (settled source is)) text =
          .ok (source, (settled source is).map edit) ∧
        text.utf8ByteSize = source.utf8ByteSize + (is.map (·.text.utf8ByteSize)).sum) ∧
    ((∃ i ∈ is, isBoundary (min i.offset source.utf8ByteSize) source.toList = false) →
      render? source is = none) ∧
    ∀ js : List Insertion, js.Perm is →
      (∀ o, js.filter (·.offset = o) = is.filter (·.offset = o)) →
        render? source js = render? source is := by
  refine ⟨fun h => ?_, ?_, fun js hperm hsame => render?_of_perm hperm hsame⟩
  · have hb := isBoundary_settled h
    obtain ⟨text, hrender, happly⟩ := apply_removals hb
    rw [inOrder_settled] at happly
    have hwoven := render?_eq_woven hb
    rw [hrender, woven_settled (by rw [utf8ByteSize_eq_byteSize, Nat.zero_add])] at hwoven
    refine ⟨text, by rw [← render?_settled, hrender], ?_, happly, ?_⟩
    · rw [Option.some.inj hwoven, String.toList_ofList]
    · have hsize := Patch.utf8ByteSize_of_apply happly
      have htexts : ((settled source is).map (·.text.utf8ByteSize)).sum =
          (is.map (·.text.utf8ByteSize)).sum := by
        rw [settled, List.map_map]
        exact ((inOrder_perm is).map _).sum_eq
      rw [delta_removals, htexts] at hsize
      omega
  · rintro ⟨i, hi, h⟩
    have hmem : clamp source.utf8ByteSize i ∈ settled source is :=
      List.mem_map_of_mem ((inOrder_perm is).mem_iff.mpr hi)
    have hnone := weave_eq_none (pairwise_settled source is) (fun _ _ => Nat.zero_le _) hmem h
    rw [render?]
    exact congrArg (Option.map String.ofList) hnone

end Insertion

end Adequacy
