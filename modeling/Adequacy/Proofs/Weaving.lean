import Adequacy.Insertion
import Adequacy.Proofs.Fitting
import Mathlib

namespace Adequacy

/-- A stable sort keeps entries as they are that stand in order among themselves. -/
theorem filter_mergeSort {α : Type} {le : α → α → Bool} {p : α → Bool} {l : List α}
    (htrans : ∀ a b c, le a b → le b c → le a c) (htotal : ∀ a b, le a b || le b a)
    (h : (l.filter p).Pairwise fun a b => le a b) : (l.mergeSort le).filter p = l.filter p := by
  have hsub : List.Sublist (l.filter p) (l.mergeSort le) :=
    List.sublist_mergeSort htrans htotal h List.filter_sublist
  have hkept : List.Sublist (l.filter p) ((l.mergeSort le).filter p) := by
    simpa using hsub.filter p
  exact (hkept.eq_of_length ((List.mergeSort_perm l le).filter p).length_eq.symm).symm

/-- Two lists are the same if they have the same keys in the same order, and the same entries in the
same order for each key. -/
theorem eq_of_filter_eq {α β : Type} [DecidableEq β] {key : α → β} {l m : List α}
    (hkeys : l.map key = m.map key)
    (h : ∀ b, l.filter (key · = b) = m.filter (key · = b)) : l = m := by
  induction l generalizing m with
  | nil => exact (List.map_eq_nil_iff.mp hkeys.symm).symm
  | cons a l ih =>
    obtain ⟨a', m, rfl, hkey, hrest⟩ := List.map_eq_cons_iff.mp hkeys.symm
    obtain ⟨rfl, -⟩ := List.cons.inj (by simpa [hkey] using h (key a))
    refine congrArg (a :: ·) (ih hrest.symm fun b => ?_)
    have hb := h b
    rw [List.filter_cons, List.filter_cons] at hb
    split at hb
    · exact (List.cons.inj hb).2
    · exact hb

namespace Span

variable {text : List Char} {a b c : Nat}

/-- The characters under a span. -/
def chars (text : List Char) (s : Span) : List Char := dropBytes s.start (takeBytes s.stop text)

theorem chars_eq {s : Span} {as mid bs : List Char} (htext : text = as ++ mid ++ bs)
    (hstart : byteSize as = s.start) (hstop : byteSize as + byteSize mid = s.stop) :
    s.chars text = mid := by
  rw [chars, htext, ← hstart, ← hstop, dropBytes_takeBytes_middle]

theorem In.byteSize_chars {s : Span} (h : s.In text) :
    byteSize (s.chars text) = s.stop - s.start := by
  obtain ⟨as, mid, bs, htext, hstart, hstop⟩ := h.exists_text
  rw [chars_eq htext hstart hstop]
  omega

theorem In.start_add_byteSize {s : Span} (h : s.In text) :
    s.start + byteSize (s.chars text) = s.stop := by
  rw [h.byteSize_chars]
  exact Nat.add_sub_cancel' h.start_le_stop

theorem In.chars_append (hab : In text ⟨a, b⟩) (hbc : In text ⟨b, c⟩) :
    chars text ⟨a, c⟩ = chars text ⟨a, b⟩ ++ chars text ⟨b, c⟩ := by
  obtain ⟨as, mid, rest, htext, hstart, hstop⟩ := hab.exists_text
  obtain ⟨as', mid', bs, htext', hstart', hstop'⟩ := hbc.exists_text
  dsimp only at hstart hstop hstart' hstop'
  have hsplit : as ++ mid ++ rest = as' ++ (mid' ++ bs) := by
    rw [← htext, htext', List.append_assoc]
  obtain ⟨rfl, rfl⟩ := append_inj_of_byteSize_eq hsplit (by rw [byteSize_append]; omega)
  have hall : text = as ++ (mid ++ mid') ++ bs := by rw [htext]; simp
  have hac : chars text ⟨a, c⟩ = mid ++ mid' :=
    chars_eq hall hstart (by rw [byteSize_append] at hstop' ⊢; dsimp only; omega)
  have hab : chars text ⟨a, b⟩ = mid := chars_eq htext hstart hstop
  have hbc : chars text ⟨b, c⟩ = mid' := chars_eq htext' hstart' hstop'
  rw [hac, hab, hbc]

theorem In.chars_prefix (hab : In text ⟨a, b⟩) (hbc : In text ⟨b, c⟩) :
    takeBytes (b - a) (chars text ⟨a, c⟩) = chars text ⟨a, b⟩ := by
  rw [hab.chars_append hbc, ← hab.byteSize_chars, takeBytes_byteSize_append]

theorem In.chars_suffix (hab : In text ⟨a, b⟩) (hbc : In text ⟨b, c⟩) :
    dropBytes (b - a) (chars text ⟨a, c⟩) = chars text ⟨b, c⟩ := by
  rw [hab.chars_append hbc, ← hab.byteSize_chars, dropBytes_byteSize_append]

theorem chars_whole (text : List Char) : chars text ⟨0, byteSize text⟩ = text :=
  have hall : text = [] ++ text ++ [] := (List.append_nil text).symm
  chars_eq hall rfl (Nat.zero_add _)

end Span

namespace Insertion

variable {pos offset : Nat} {as bs cs : List Char} {is js : List Insertion}

/-- The texts that are recorded for an offset, in the order they were recorded. -/
def textsAt (is : List Insertion) (offset : Nat) : List Char :=
  is.flatMap fun i => if i.offset = offset then i.text.toList else []

/-- A text that begins at offset `pos`, with what is recorded for the place of each character in
front of it and what is recorded for its end behind it. -/
def woven (is : List Insertion) (pos : Nat) : List Char → List Char
  | [] => textsAt is pos
  | c :: cs => textsAt is pos ++ c :: woven is (pos + c.utf8Size) cs

@[simp] theorem textsAt_append (is js : List Insertion) (offset : Nat) :
    textsAt (is ++ js) offset = textsAt is offset ++ textsAt js offset :=
  List.flatMap_append

theorem textsAt_eq_nil (h : ∀ i ∈ is, i.offset ≠ offset) : textsAt is offset = [] :=
  List.flatMap_eq_nil_iff.mpr fun i hi => if_neg (h i hi)

theorem textsAt_eq_filter (is : List Insertion) (offset : Nat) :
    textsAt is offset = (is.filter (·.offset = offset)).flatMap (·.text.toList) := by
  induction is with
  | nil => rfl
  | cons i is ih =>
    simp only [textsAt, List.flatMap_cons, List.filter_cons] at ih ⊢
    rw [ih]
    split <;> simp_all

/-- Only the texts recorded from the first offset on count. -/
theorem woven_congr (h : ∀ o, pos ≤ o → textsAt is o = textsAt js o) :
    woven is pos cs = woven js pos cs := by
  induction cs generalizing pos with
  | nil => exact h pos (Nat.le_refl _)
  | cons c cs ih =>
    rw [woven, woven, h pos (Nat.le_refl _), ih fun o ho => h o (by omega)]

@[simp] theorem woven_nil (pos : Nat) (cs : List Char) : woven [] pos cs = cs := by
  induction cs generalizing pos with
  | nil => rfl
  | cons c cs ih => rw [woven, ih]; rfl

/-- Where a text is parted, so are its insertions, if those in the first part are recorded before
those in the second one. -/
theorem woven_append (hi : ∀ i ∈ is, i.offset ≤ pos + byteSize as)
    (hj : ∀ j ∈ js, pos + byteSize as ≤ j.offset) :
    woven (is ++ js) pos (as ++ bs) = woven is pos as ++ woven js (pos + byteSize as) bs := by
  induction as generalizing pos with
  | nil =>
    have hlater (o : Nat) (ho : pos < o) : textsAt is o = [] :=
      textsAt_eq_nil fun i him => by have := hi i him; simp at this; omega
    cases bs with
    | nil => simp [woven]
    | cons b bs =>
      have := b.utf8Size_pos
      have hrest : woven (is ++ js) (pos + b.utf8Size) bs = woven js (pos + b.utf8Size) bs :=
        woven_congr fun o ho => by rw [textsAt_append, hlater o (by omega), List.nil_append]
      simp [woven, hrest]
  | cons c as ih =>
    have := c.utf8Size_pos
    have hfirst : textsAt js pos = [] :=
      textsAt_eq_nil fun j hjm => by have := hj j hjm; rw [byteSize_cons] at this; omega
    rw [byteSize_cons, ← Nat.add_assoc] at hi hj ⊢
    rw [List.cons_append, woven, woven, textsAt_append, hfirst, ih hi hj]
    simp

theorem textsAt_filter (is : List Insertion) (q : Nat → Bool) (offset : Nat) :
    textsAt (is.filter (q ·.offset)) offset = if q offset then textsAt is offset else [] := by
  rw [textsAt_eq_filter, textsAt_eq_filter, List.filter_filter]
  split
  next hq =>
    refine congrArg _ (List.filter_congr fun i _ => ?_)
    by_cases ho : i.offset = offset <;> simp [ho, hq]
  next hq =>
    have hnone : is.filter (fun i => decide (i.offset = offset) && q i.offset) = [] := by
      refine List.filter_eq_nil_iff.mpr fun i _ => ?_
      by_cases ho : i.offset = offset <;> simp [ho, hq]
    rw [hnone]
    rfl

/-- A text in two parts, each with the insertions on its side. Those at the place between them can
go with either. -/
theorem woven_split (is : List Insertion) (q : Nat → Bool)
    (hfront : ∀ o, q o = true → o ≤ pos + byteSize as)
    (hback : ∀ o, q o = false → pos + byteSize as ≤ o) :
    woven is pos (as ++ bs) = woven (is.filter (q ·.offset)) pos as ++
      woven (is.filter (!q ·.offset)) (pos + byteSize as) bs := by
  rw [← woven_append (fun i hi => hfront _ (List.mem_filter.mp hi).2)
    fun i hi => hback _ (by simpa using (List.mem_filter.mp hi).2)]
  refine woven_congr fun o _ => ?_
  rw [textsAt_append, textsAt_filter, textsAt_filter is (fun o => !q o)]
  cases q o <;> simp

theorem woven_cons_here {i : Insertion} (hi : i.offset = pos) (hj : ∀ j ∈ js, pos ≤ j.offset) :
    woven (i :: js) pos cs = i.text.toList ++ woven js pos cs := by
  have h : woven ([i] ++ js) pos ([] ++ cs) = _ := woven_append (by simp [hi]) (by simpa using hj)
  simpa [woven, textsAt, hi] using h

/-- What is recorded last for the end of a text stands at its end. -/
theorem woven_concat {i : Insertion} (hi : i.offset = pos + byteSize cs)
    (hj : ∀ j ∈ js, j.offset ≤ pos + byteSize cs) :
    woven (js ++ [i]) pos cs = woven js pos cs ++ i.text.toList := by
  have h : woven (js ++ [i]) pos (cs ++ []) = _ := woven_append hj (by simp [hi])
  simpa [woven, textsAt, hi] using h

/-- Insertions behind the first part of a text leave it as it is. -/
theorem woven_front (hj : ∀ j ∈ js, pos + byteSize as ≤ j.offset) :
    woven js pos (as ++ bs) = as ++ woven js (pos + byteSize as) bs := by
  have h : woven ([] ++ js) pos (as ++ bs) = _ := woven_append (by simp) hj
  simpa using h

/-- A text with a stretch that insertions are made in, and more of them behind it. -/
theorem woven_middle {mid : List Char}
    (hi : ∀ i ∈ is, pos + byteSize as ≤ i.offset ∧ i.offset ≤ pos + byteSize as + byteSize mid)
    (hj : ∀ j ∈ js, pos + byteSize as + byteSize mid ≤ j.offset) :
    woven (is ++ js) pos (as ++ (mid ++ bs)) = as ++ (woven is (pos + byteSize as) mid ++
      woven js (pos + byteSize as + byteSize mid) bs) := by
  rw [woven_front, woven_append (fun i h => (hi i h).2) hj]
  intro k hk
  rcases List.mem_append.mp hk with hk | hk
  · exact (hi k hk).1
  · exact (Nat.le_add_right _ _).trans (hj k hk)

/-- Later offsets that fall between the characters of a text do so behind an earlier one. -/
theorem isBoundary_behind {offset : Nat} (hstop : pos + byteSize as = offset)
    (hlater : ∀ i ∈ is, offset ≤ i.offset)
    (hi : ∀ i ∈ is, isBoundary (i.offset - pos) (as ++ bs) = true) :
    ∀ i ∈ is, offset ≤ i.offset ∧ isBoundary (i.offset - offset) bs = true := by
  intro i h
  have hle := hlater i h
  obtain ⟨front, back, htext, hsize⟩ := isBoundary_iff.mp (hi i h)
  obtain ⟨mid, rfl, rfl⟩ := exists_append_of_byteSize_le htext (by omega)
  rw [byteSize_append] at hsize
  exact ⟨hle, isBoundary_iff.mpr ⟨mid, back, rfl, by omega⟩⟩

theorem weave_eq_woven (hs : is.Pairwise (·.offset ≤ ·.offset))
    (hi : ∀ i ∈ is, pos ≤ i.offset ∧ isBoundary (i.offset - pos) cs = true) :
    weave cs pos is = some (woven is pos cs) := by
  induction is generalizing pos cs with
  | nil => simp [weave]
  | cons i later ih =>
    obtain ⟨hlater, hs⟩ := List.pairwise_cons.mp hs
    obtain ⟨⟨hpos, hb⟩, hi⟩ := List.forall_mem_cons.mp hi
    rw [weave]
    split
    next hlt =>
      obtain ⟨as, bs, rfl, hsize⟩ := isBoundary_iff.mp hb
      have hstop : pos + byteSize as = i.offset := by omega
      have hrest := isBoundary_behind hstop hlater fun j hj => (hi j hj).2
      have hfront : ∀ j ∈ i :: later, pos + byteSize as ≤ j.offset := by
        rw [hstop]
        exact List.forall_mem_cons.mpr ⟨Nat.le_refl _, hlater⟩
      rw [if_pos hb, ← hsize, dropBytes_byteSize_append, takeBytes_byteSize_append, ih hs hrest,
        woven_front hfront, hstop, woven_cons_here rfl hlater]
      simp
    next hle =>
      have heq : i.offset = pos := by omega
      rw [ih hs hi, woven_cons_here heq fun j hj => (hi j hj).1]
      rfl

theorem notAfter_trans (a b c : Insertion) (hab : decide (a.offset ≤ b.offset) = true)
    (hbc : decide (b.offset ≤ c.offset) = true) : decide (a.offset ≤ c.offset) = true := by
  simp only [decide_eq_true_eq] at *
  omega

theorem notAfter_total (a b : Insertion) :
    (decide (a.offset ≤ b.offset) || decide (b.offset ≤ a.offset)) = true := by
  simp only [Bool.or_eq_true, decide_eq_true_eq]
  omega

theorem inOrder_perm (is : List Insertion) : (inOrder is).Perm is := List.mergeSort_perm _ _

theorem pairwise_inOrder (is : List Insertion) : (inOrder is).Pairwise (·.offset ≤ ·.offset) := by
  simpa [inOrder] using List.pairwise_mergeSort notAfter_trans notAfter_total is

/-- Sorting keeps the order in which texts for one offset were recorded. -/
theorem textsAt_inOrder (is : List Insertion) (offset : Nat) :
    textsAt (inOrder is) offset = textsAt is offset := by
  have hsame : (is.filter (·.offset = offset)).Pairwise
      fun a b => decide (a.offset ≤ b.offset) = true := by
    refine List.pairwise_iff_forall_sublist.mpr fun {a b} hab => ?_
    have ha : a ∈ is.filter (·.offset = offset) := hab.subset (by simp)
    have hb : b ∈ is.filter (·.offset = offset) := hab.subset (by simp)
    simp only [List.mem_filter, decide_eq_true_eq] at ha hb ⊢
    omega
  rw [textsAt_eq_filter, textsAt_eq_filter, inOrder,
    filter_mergeSort notAfter_trans notAfter_total hsame]

/-- Insertions that all lie in a source are woven into it in order. -/
theorem render?_eq_weave {source : String}
    (h : ∀ i ∈ is, isBoundary i.offset source.toList = true) :
    render? source is = (weave source.toList 0 (inOrder is)).map String.ofList := by
  have hclamp : (inOrder is).map (fun i => { i with offset := min i.offset source.utf8ByteSize }) =
      inOrder is := by
    refine List.map_congr_left (fun i hi => ?_) |>.trans (List.map_id _)
    rw [Nat.min_eq_left (le_of_isBoundary (h i ((inOrder_perm is).mem_iff.mp hi)))]
    rfl
  rw [render?, hclamp]

/-- Rendering puts every recorded text in its place. -/
theorem render?_eq_woven {source : String}
    (h : ∀ i ∈ is, isBoundary i.offset source.toList = true) :
    render? source is = some (String.ofList (woven is 0 source.toList)) := by
  have hsame : woven (inOrder is) 0 source.toList = woven is 0 source.toList :=
    woven_congr fun o _ => textsAt_inOrder is o
  rw [render?_eq_weave h, weave_eq_woven (pairwise_inOrder is), hsame]
  · rfl
  · exact fun i hi => ⟨Nat.zero_le _, h i ((inOrder_perm is).mem_iff.mp hi)⟩

end Insertion

/-- Two spans do not overlap, and the first one comes first if they touch. -/
def Span.Parted (a b : Span) : Prop := a.stop ≤ b.start ∨ b.stop < a.start

/-- A stretch of a source and what is inserted in it. -/
structure Stretch where
  span : Span
  insertions : List Insertion

namespace Stretch

variable {text : List Char} {lo hi : Nat} {stretches : List Stretch}

/-- All that is inserted in a stretch has its place there. -/
structure In (text : List Char) (s : Stretch) : Prop where
  span_in : s.span.In text
  offset_in : ∀ i ∈ s.insertions, s.span.start ≤ i.offset ∧ i.offset ≤ s.span.stop

/-- A stretch with its insertions, in place of what is under it. -/
def edit (text : List Char) (s : Stretch) : Edit :=
  ⟨s.span, String.ofList (Insertion.woven s.insertions s.span.start (s.span.chars text))⟩

/-- Replacing ordered stretches of a text one by one makes all their insertions in it. -/
theorem splice_edits (hin : ∀ s ∈ stretches, s.In text)
    (hs : stretches.Pairwise (·.span.stop ≤ ·.span.start))
    (hlo : ∀ s ∈ stretches, lo ≤ s.span.start) (hhi : ∀ s ∈ stretches, s.span.stop ≤ hi)
    (htext : Span.In text ⟨lo, hi⟩) :
    Patch.splice (Span.chars text ⟨lo, hi⟩) lo (stretches.map (edit text)) =
      Insertion.woven (stretches.flatMap insertions) lo (Span.chars text ⟨lo, hi⟩) := by
  induction stretches generalizing lo with
  | nil => simp [Patch.splice]
  | cons s later ih =>
    simp only [List.forall_mem_cons] at hin hlo hhi
    obtain ⟨hlater, hs⟩ := List.pairwise_cons.mp hs
    obtain ⟨⟨hspan, hoffsets⟩, hin⟩ := hin
    have hfront : Span.In text ⟨lo, s.span.start⟩ :=
      ⟨htext.start_isBoundary, hspan.start_isBoundary, hlo.1⟩
    have hback : Span.In text ⟨s.span.stop, hi⟩ :=
      ⟨hspan.stop_isBoundary, htext.stop_isBoundary, hhi.1⟩
    have hrest : Span.In text ⟨s.span.start, hi⟩ :=
      ⟨hspan.start_isBoundary, htext.stop_isBoundary, hspan.start_le_stop.trans hhi.1⟩
    have hsplit : Span.chars text ⟨lo, hi⟩ = Span.chars text ⟨lo, s.span.start⟩ ++
        (s.span.chars text ++ Span.chars text ⟨s.span.stop, hi⟩) := by
      rw [hfront.chars_append hrest, ← hspan.chars_append hback]
    have hle := hspan.start_le_stop
    have hstart : lo + byteSize (Span.chars text ⟨lo, s.span.start⟩) = s.span.start :=
      hfront.start_add_byteSize
    have hstop := hspan.start_add_byteSize
    have htake : takeBytes (s.span.start - lo) (Span.chars text ⟨lo, hi⟩) =
        Span.chars text ⟨lo, s.span.start⟩ := hfront.chars_prefix hrest
    have hdrop : dropBytes (s.span.stop - lo) (Span.chars text ⟨lo, hi⟩) =
        Span.chars text ⟨s.span.stop, hi⟩ :=
      Span.In.chars_suffix ⟨htext.start_isBoundary, hspan.stop_isBoundary, hlo.1.trans hle⟩ hback
    have hbehind (i) (hi : i ∈ later.flatMap insertions) : s.span.stop ≤ i.offset := by
      obtain ⟨t, ht, hi⟩ := List.mem_flatMap.mp hi
      exact (hlater t ht).trans ((hin t ht).offset_in i hi).1
    have hlast : Patch.splice (Span.chars text ⟨s.span.stop, hi⟩) s.span.stop
        (later.map (edit text)) = Insertion.woven (later.flatMap insertions) s.span.stop
          (Span.chars text ⟨s.span.stop, hi⟩) := ih hin hs hlater hhi.2 hback
    have hwoven : Insertion.woven (s.insertions ++ later.flatMap insertions) lo
        (Span.chars text ⟨lo, s.span.start⟩ ++
          (s.span.chars text ++ Span.chars text ⟨s.span.stop, hi⟩)) = _ :=
      Insertion.woven_middle (by rw [hstart, hstop]; exact hoffsets)
        (by rw [hstart, hstop]; exact hbehind)
    rw [hstart, hstop, ← hsplit] at hwoven
    rw [List.flatMap_cons, hwoven, List.map_cons, Patch.splice]
    simp only [edit, htake, hdrop, hlast, String.toList_ofList, List.append_assoc]

/-- What is inserted at an offset belongs to the stretches that reach it. -/
theorem textsAt_flatMap (hin : ∀ s ∈ stretches, s.In text) (offset : Nat) :
    Insertion.textsAt (stretches.flatMap insertions) offset =
      (stretches.filter fun s => s.span.start ≤ offset ∧ offset ≤ s.span.stop).flatMap
        fun s => Insertion.textsAt s.insertions offset := by
  induction stretches with
  | nil => rfl
  | cons s later ih =>
    obtain ⟨hs, hin⟩ := List.forall_mem_cons.mp hin
    rw [List.flatMap_cons, Insertion.textsAt_append, ih hin, List.filter_cons]
    split
    next => rfl
    next hout =>
      have hnone : Insertion.textsAt s.insertions offset = [] :=
        Insertion.textsAt_eq_nil fun i hi ho => hout (by simpa [ho] using hs.offset_in i hi)
      rw [hnone, List.nil_append]

/-- Whether a stretch is sorted before another one, as their edits are. -/
def notAfter (s t : Stretch) : Bool := (s.edit []).notAfter (t.edit [])

theorem notAfter_iff {s t : Stretch} : s.notAfter t = true ↔ s.span.start < t.span.start ∨
    s.span.start = t.span.start ∧ s.span.stop ≤ t.span.stop := Edit.notAfter_iff

theorem notAfter_trans (s t u : Stretch) (hst : s.notAfter t = true) (htu : t.notAfter u = true) :
    s.notAfter u = true := Edit.notAfter_trans _ _ _ hst htu

theorem notAfter_total (s t : Stretch) : (s.notAfter t || t.notAfter s) = true :=
  Edit.notAfter_total _ _

def inOrder (stretches : List Stretch) : List Stretch := stretches.mergeSort notAfter

theorem inOrder_perm (stretches : List Stretch) : (inOrder stretches).Perm stretches :=
  List.mergeSort_perm _ _

theorem inOrder_edits (text : List Char) (stretches : List Stretch) :
    Patch.inOrder (stretches.map (edit text)) = (inOrder stretches).map (edit text) := by
  have hmap : (inOrder stretches).map (edit text) =
      (stretches.map (edit text)).mergeSort Edit.notAfter := List.map_mergeSort fun _ _ _ _ => rfl
  exact hmap.symm

/-- Parted stretches follow each other once they are sorted. -/
theorem pairwise_inOrder (hin : ∀ s ∈ stretches, s.In text)
    (hp : stretches.Pairwise (·.span.Parted ·.span)) :
    (inOrder stretches).Pairwise (·.span.stop ≤ ·.span.start) := by
  have hsorted : (inOrder stretches).Pairwise (notAfter · · = true) :=
    List.pairwise_mergeSort notAfter_trans notAfter_total stretches
  have hapart : (inOrder stretches).Pairwise
      fun s t => s.span.stop ≤ t.span.start ∨ t.span.stop ≤ s.span.start :=
    (inOrder_perm stretches).symm.pairwise (hp.imp fun h => h.imp_right Nat.le_of_lt)
      fun h => h.symm
  refine (hsorted.and hapart).imp_of_mem ?_
  rintro s t hs ht ⟨hle, hst⟩
  have hs := (hin s ((inOrder_perm stretches).mem_iff.mp hs)).span_in.start_le_stop
  have ht := (hin t ((inOrder_perm stretches).mem_iff.mp ht)).span_in.start_le_stop
  rw [notAfter_iff] at hle
  omega

/-- Sorting parted stretches keeps what is inserted at each offset. -/
theorem textsAt_inOrder (hin : ∀ s ∈ stretches, s.In text)
    (hp : stretches.Pairwise (·.span.Parted ·.span)) (offset : Nat) :
    Insertion.textsAt ((inOrder stretches).flatMap insertions) offset =
      Insertion.textsAt (stretches.flatMap insertions) offset := by
  -- the stretches that reach an offset touch there: they stand in order and stay so
  have hreach : (stretches.filter fun s => s.span.start ≤ offset ∧ offset ≤ s.span.stop).Pairwise
      (notAfter · · = true) := by
    refine (hp.sublist List.filter_sublist).imp_of_mem ?_
    intro s t hs ht h
    simp only [List.mem_filter, decide_eq_true_eq] at hs ht
    rw [notAfter_iff]
    rcases h with h | h <;> omega
  have hin' (s) (hs : s ∈ inOrder stretches) : s.In text :=
    hin s ((inOrder_perm stretches).mem_iff.mp hs)
  rw [textsAt_flatMap hin, textsAt_flatMap hin', inOrder,
    filter_mergeSort notAfter_trans notAfter_total hreach]

/-- Replacing parted stretches of a text makes all their insertions in it. -/
theorem splice_inOrder (hin : ∀ s ∈ stretches, s.In text)
    (hp : stretches.Pairwise (·.span.Parted ·.span))
    (hspan : ∀ s ∈ stretches, lo ≤ s.span.start ∧ s.span.stop ≤ hi)
    (htext : Span.In text ⟨lo, hi⟩) :
    Patch.splice (Span.chars text ⟨lo, hi⟩) lo (Patch.inOrder (stretches.map (edit text))) =
      Insertion.woven (stretches.flatMap insertions) lo (Span.chars text ⟨lo, hi⟩) := by
  have hmem {s} := (inOrder_perm stretches).mem_iff (a := s)
  rw [inOrder_edits, splice_edits (fun s hs => hin s (hmem.mp hs)) (pairwise_inOrder hin hp)
    (fun s hs => (hspan s (hmem.mp hs)).1) (fun s hs => (hspan s (hmem.mp hs)).2) htext]
  exact Insertion.woven_congr fun o _ => textsAt_inOrder hin hp o

end Stretch

end Adequacy
