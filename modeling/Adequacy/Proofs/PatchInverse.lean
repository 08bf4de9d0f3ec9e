import Adequacy.Patch
import Adequacy.Proofs.TextSlice
import Mathlib

namespace Adequacy

namespace Edit

theorem notAfter_iff {a b : Edit} : a.notAfter b = true ↔ a.span.start < b.span.start ∨
    a.span.start = b.span.start ∧ a.span.stop ≤ b.span.stop := by
  simp [notAfter]

theorem notAfter_trans (a b c : Edit) (hab : a.notAfter b = true) (hbc : b.notAfter c = true) :
    a.notAfter c = true := by
  rw [notAfter_iff] at *
  omega

theorem notAfter_total (a b : Edit) : (a.notAfter b || b.notAfter a) = true := by
  rw [Bool.or_eq_true, notAfter_iff, notAfter_iff]
  omega

end Edit

/-- A stretch of a text that is replaced, with the text that is kept in front of it. -/
structure Cut where
  kept : List Char
  old : List Char
  new : List Char

namespace Cut

def swap (c : Cut) : Cut := ⟨c.kept, c.new, c.old⟩

/-- The text that the cuts are made in, up to its end `rest`. -/
def before : List Cut → List Char → List Char
  | [], rest => rest
  | c :: later, rest => c.kept ++ (c.old ++ before later rest)

/-- The text that the cuts lead to. -/
def after (cuts : List Cut) (rest : List Char) : List Char := before (cuts.map swap) rest

/-- The edits that make the cuts in a text that begins at offset `pos`. -/
def edits (pos : Nat) : List Cut → Patch
  | [] => []
  | c :: later =>
    let start := pos + byteSize c.kept
    let stop := start + byteSize c.old
    ⟨⟨start, stop⟩, String.ofList c.new⟩ :: edits stop later

@[simp] theorem swap_swap (c : Cut) : c.swap.swap = c := rfl

@[simp] theorem map_swap_swap (cuts : List Cut) : (cuts.map swap).map swap = cuts := by
  induction cuts with
  | nil => rfl
  | cons c later ih => simp [ih]

theorem after_map_swap (cuts : List Cut) (rest : List Char) :
    after (cuts.map swap) rest = before cuts rest := by
  simp only [after, map_swap_swap]

theorem after_cons (c : Cut) (later : List Cut) (rest : List Char) :
    after (c :: later) rest = c.kept ++ (c.new ++ after later rest) := rfl

/-- Every edit of the cuts lies in the text behind the offset that it begins at. -/
theorem mem_edits {cuts : List Cut} {pos : Nat} {e : Edit} (h : e ∈ edits pos cuts) :
    pos ≤ e.span.start ∧ e.span.start ≤ e.span.stop := by
  induction cuts generalizing pos with
  | nil => cases h
  | cons c later ih =>
    rcases List.mem_cons.mp h with rfl | h
    · exact ⟨by simp, by simp⟩
    · have := ih h
      exact ⟨by omega, this.2⟩

theorem pairwise_edits (cuts : List Cut) (pos : Nat) :
    (edits pos cuts).Pairwise (fun a b => Edit.notAfter a b = true) := by
  induction cuts generalizing pos with
  | nil => exact List.Pairwise.nil
  | cons c later ih =>
    refine List.Pairwise.cons ?_ (ih _)
    intro e he
    have hm := mem_edits he
    simp only [Edit.notAfter, Bool.or_eq_true, Bool.and_eq_true, decide_eq_true_eq, beq_iff_eq]
    omega

/-- The edits of cuts are in order. -/
theorem inOrder_edits (cuts : List Cut) (pos : Nat) :
    Patch.inOrder (edits pos cuts) = edits pos cuts :=
  List.mergeSort_of_pairwise (pairwise_edits cuts pos)

theorem checkOverlap_edits (cuts : List Cut) (pos : Nat) :
    Patch.checkOverlap (edits pos cuts) = .ok () := by
  induction cuts generalizing pos with
  | nil => rfl
  | cons c later ih =>
    cases later with
    | nil => rfl
    | cons d later =>
      have hn : ¬ pos + byteSize c.kept + byteSize c.old >
          pos + byteSize c.kept + byteSize c.old + byteSize d.kept := by omega
      have := ih (pos + byteSize c.kept + byteSize c.old)
      simp only [edits, Patch.checkOverlap] at this ⊢
      rw [if_neg hn, this]

end Cut

/-- An edit fits a text exactly if its span falls between characters. -/
theorem Edit.check_eq_ok_iff {cs : List Char} {e : Edit} :
    Edit.check cs e = .ok () ↔
      ∃ as old bs, cs = as ++ (old ++ bs) ∧ byteSize as = e.span.start ∧
        byteSize as + byteSize old = e.span.stop := by
  constructor
  · intro h
    unfold Edit.check at h
    split at h
    · cases h
    next hb =>
      split at h
      · cases h
      next h1 =>
        split at h
        · cases h
        next h2 =>
          obtain ⟨as, bs, e1, s1⟩ := isBoundary_iff.mp (by simpa using h1)
          obtain ⟨as', bs', e2, s2⟩ := isBoundary_iff.mp (by simpa using h2)
          obtain ⟨old, e3, e4⟩ := exists_append_of_byteSize_le (e1.symm.trans e2) (by omega)
          exact ⟨as, old, bs', by rw [e1, e4], s1, by rw [← s2, e3, byteSize_append]⟩
  · rintro ⟨as, old, bs, rfl, h1, h2⟩
    have b1 := isBoundary_byteSize_append as (old ++ bs)
    have b2 := isBoundary_middle as old bs
    rw [List.append_assoc, h2] at b2
    rw [h1] at b1
    unfold Edit.check
    rw [if_neg (by simp only [byteSize_append]; omega), b1, b2]
    rfl

/-- The edits of cuts fit the text that the cuts are made in. -/
theorem Cut.check_edits (as : List Char) (cuts : List Cut) (rest : List Char) :
    ∀ e ∈ edits (byteSize as) cuts, Edit.check (as ++ before cuts rest) e = .ok () := by
  induction cuts generalizing as with
  | nil => simp [edits]
  | cons c later ih =>
    intro e he
    rcases List.mem_cons.mp he with rfl | he
    · refine Edit.check_eq_ok_iff.mpr ⟨as ++ c.kept, c.old, before later rest, ?_, ?_, ?_⟩
      · simp [before]
      · simp
      · simp
    · have hh := ih (as ++ c.kept ++ c.old) e (by simpa [Nat.add_assoc] using he)
      simpa [before] using hh

namespace Patch

theorem forM_check_eq_ok_iff {cs : List Char} {p : Patch} :
    p.forM (Edit.check cs) = .ok () ↔ ∀ e ∈ p, Edit.check cs e = .ok () := by
  induction p with
  | nil => simp [List.forM, pure, Except.pure]
  | cons e later ih =>
    rw [List.forall_mem_cons, ← ih]
    cases hc : Edit.check cs e <;> simp [List.forM, hc, bind, Except.bind]

theorem checkOverlap_cons_cons {a b : Edit} {later : Patch}
    (h : checkOverlap (a :: b :: later) = .ok ()) :
    a.span.stop ≤ b.span.start ∧ checkOverlap (b :: later) = .ok () := by
  simp only [checkOverlap] at h
  split at h
  · cases h
  · exact ⟨by omega, h⟩

/-- Edits that pass the checks are those of cuts. -/
theorem exists_cuts {as cs : List Char} {p : Patch}
    (hc : ∀ e ∈ p, Edit.check (as ++ cs) e = .ok ()) (ho : checkOverlap p = .ok ())
    (hs : ∀ e ∈ p.head?, byteSize as ≤ e.span.start) :
    ∃ cuts rest, cs = Cut.before cuts rest ∧ p = Cut.edits (byteSize as) cuts := by
  induction p generalizing as cs with
  | nil => exact ⟨[], cs, rfl, rfl⟩
  | cons e later ih =>
    obtain ⟨front, old, bs, h1, h2, h3⟩ := Edit.check_eq_ok_iff.mp (hc e List.mem_cons_self)
    obtain ⟨kept, h4, h5⟩ := exists_append_of_byteSize_le h1 (by simpa [h2] using hs)
    have hl : checkOverlap later = .ok () ∧
        ∀ d ∈ later.head?, byteSize (front ++ old) ≤ d.span.start := by
      cases later with
      | nil => exact ⟨rfl, by simp⟩
      | cons d later =>
        obtain ⟨ho1, ho2⟩ := checkOverlap_cons_cons ho
        exact ⟨ho2, by simp; omega⟩
    have hc' : ∀ d ∈ later, Edit.check ((front ++ old) ++ bs) d = .ok () := by
      intro d hd
      rw [List.append_assoc, ← h1]
      exact hc d (List.mem_cons_of_mem e hd)
    obtain ⟨cuts, rest, h6, h7⟩ := ih hc' hl.1 hl.2
    refine ⟨⟨kept, old, e.text.toList⟩ :: cuts, rest, by rw [h5, h6]; rfl, ?_⟩
    have hstart : byteSize as + byteSize kept = e.span.start := by
      rw [← h2, h4, byteSize_append]
    have hstop : e.span.start + byteSize old = e.span.stop := by omega
    have hfront : byteSize (front ++ old) = e.span.stop := by rw [byteSize_append]; exact h3
    rw [hfront] at h7
    rw [h7]
    simp only [Cut.edits, hstart, hstop, String.ofList_toList]

theorem splice_edits (cuts : List Cut) (pos : Nat) (rest : List Char) :
    splice (Cut.before cuts rest) pos (Cut.edits pos cuts) = Cut.after cuts rest := by
  induction cuts generalizing pos with
  | nil => rfl
  | cons c later ih =>
    have hk : pos + byteSize c.kept - pos = byteSize c.kept := by omega
    have hd : pos + byteSize c.kept + byteSize c.old - pos = byteSize (c.kept ++ c.old) := by
      rw [byteSize_append]; omega
    have hr : c.kept ++ (c.old ++ Cut.before later rest) =
        (c.kept ++ c.old) ++ Cut.before later rest := (List.append_assoc ..).symm
    simp only [Cut.before, Cut.edits, splice, hk, hd, takeBytes_byteSize_append]
    rw [hr, dropBytes_byteSize_append, ih, Cut.after_cons, String.toList_ofList, List.append_assoc]

theorem undo_edits (as : List Char) (cuts : List Cut) (rest : List Char) (shift : Int) (pos : Nat)
    (h : (pos : Int) = byteSize as + shift) :
    undo (as ++ Cut.before cuts rest) shift (Cut.edits (byteSize as) cuts) =
      Cut.edits pos (cuts.map Cut.swap) := by
  induction cuts generalizing as shift pos with
  | nil => rfl
  | cons c later ih =>
    have hstart : (((byteSize as + byteSize c.kept : Nat) : Int) + shift).toNat =
        pos + byteSize c.kept := by omega
    have hold : dropBytes (byteSize as + byteSize c.kept)
        (takeBytes (byteSize as + byteSize c.kept + byteSize c.old)
          (as ++ Cut.before (c :: later) rest)) = c.old := by
      have := dropBytes_takeBytes_middle (as ++ c.kept) c.old (Cut.before later rest)
      simpa [Cut.before] using this
    have hnew : (String.ofList c.new).utf8ByteSize = byteSize c.new := by
      rw [utf8ByteSize_eq_byteSize, String.toList_ofList]
    have hlater := ih (as ++ c.kept ++ c.old)
      (shift + ((byteSize c.new : Int) - byteSize c.old)) (pos + byteSize c.kept + byteSize c.new)
      (by simp only [byteSize_append]; omega)
    have htext : as ++ c.kept ++ c.old ++ Cut.before later rest =
        as ++ Cut.before (c :: later) rest := by simp [Cut.before]
    rw [htext, byteSize_append, byteSize_append] at hlater
    have hlen : byteSize as + byteSize c.kept + byteSize c.old -
        (byteSize as + byteSize c.kept) = byteSize c.old := by omega
    simp only [Cut.edits, undo, hstart, hold, hnew, Edit.delta, Span.length, hlen, List.map_cons,
      Cut.swap]
    rw [hlater]

/-- Applying the edits of cuts makes the cuts, and the inverse makes the swapped ones. -/
theorem apply_edits (cuts : List Cut) (rest : List Char) :
    apply (Cut.edits 0 cuts) (String.ofList (Cut.before cuts rest)) =
      .ok (String.ofList (Cut.after cuts rest), Cut.edits 0 (cuts.map Cut.swap)) := by
  have hc : List.forM (Cut.edits 0 cuts) (Edit.check (Cut.before cuts rest)) = .ok () :=
    forM_check_eq_ok_iff.mpr (Cut.check_edits [] cuts rest)
  have hu := undo_edits [] cuts rest 0 0 (by simp)
  simp only [byteSize_nil, List.nil_append] at hu
  simp only [apply, Cut.inOrder_edits, String.toList_ofList, hc, Cut.checkOverlap_edits,
    splice_edits, hu]
  rfl

theorem inOrder_perm (p : Patch) : p.inOrder.Perm p := List.mergeSort_perm p Edit.notAfter

theorem pairwise_inOrder (p : Patch) :
    p.inOrder.Pairwise (fun a b => Edit.notAfter a b = true) :=
  List.pairwise_mergeSort Edit.notAfter_trans Edit.notAfter_total p

/-- A patch that is applied makes cuts, and nothing else is known of it but its order. -/
theorem apply_eq_ok_iff {p q : Patch} {text new : String} :
    p.apply text = .ok (new, q) ↔ ∃ cuts rest, text = String.ofList (Cut.before cuts rest) ∧
      p.inOrder = Cut.edits 0 cuts ∧ new = String.ofList (Cut.after cuts rest) ∧
      q = Cut.edits 0 (cuts.map Cut.swap) := by
  have hsort : p.inOrder.inOrder = p.inOrder := List.mergeSort_of_pairwise (pairwise_inOrder p)
  have happly : p.apply text = p.inOrder.apply text := by simp only [apply, hsort]
  constructor
  · intro h
    have hfits : (∀ e ∈ p.inOrder, Edit.check text.toList e = .ok ()) ∧
        checkOverlap p.inOrder = .ok () := by
      simp only [apply] at h
      cases hc : List.forM p.inOrder (Edit.check text.toList) with
      | error x => rw [hc] at h; cases h
      | ok u =>
        cases ho : checkOverlap p.inOrder with
        | error x => rw [hc, ho] at h; cases h
        | ok v => exact ⟨forM_check_eq_ok_iff.mp hc, rfl⟩
    obtain ⟨cuts, rest, h1, h2⟩ := @exists_cuts [] text.toList p.inOrder hfits.1 hfits.2 (by simp)
    have htext : text = String.ofList (Cut.before cuts rest) := by
      rw [← h1, String.ofList_toList]
    have h2 : p.inOrder = Cut.edits 0 cuts := h2
    rw [happly, h2, htext, apply_edits] at h
    cases h
    exact ⟨cuts, rest, htext, h2, rfl, rfl⟩
  · rintro ⟨cuts, rest, rfl, h, rfl, rfl⟩
    rw [happly, h, apply_edits]

/-- The length that cuts change is the sum of what their edits change. -/
theorem byteSize_after (cuts : List Cut) (rest : List Char) (pos : Nat) :
    (byteSize (Cut.after cuts rest) : Int) =
      byteSize (Cut.before cuts rest) + (Cut.edits pos cuts).delta := by
  induction cuts generalizing pos with
  | nil => simp [Cut.after, Cut.before, Cut.edits, delta]
  | cons c later ih =>
    have := ih (pos + byteSize c.kept + byteSize c.old)
    simp only [Cut.after_cons, Cut.before, Cut.edits, delta, byteSize_append, Edit.delta,
      utf8ByteSize_eq_byteSize, String.toList_ofList, Span.length] at this ⊢
    omega

theorem delta_edits_swap (cuts : List Cut) (pos : Nat) :
    (Cut.edits pos (cuts.map Cut.swap)).delta = - (Cut.edits pos cuts).delta := by
  have h1 := byteSize_after cuts [] pos
  have h2 := byteSize_after (cuts.map Cut.swap) [] pos
  rw [Cut.after_map_swap] at h2
  simp only [Cut.after] at h1
  omega

theorem delta_eq_sum (p : Patch) : p.delta = (p.map Edit.delta).sum := by
  induction p with
  | nil => rfl
  | cons e later ih => rw [delta, ih, List.map_cons, List.sum_cons]

theorem delta_inOrder (p : Patch) : p.inOrder.delta = p.delta := by
  rw [delta_eq_sum, delta_eq_sum]
  exact (p.inOrder_perm.map Edit.delta).sum_eq

/-- The inverse of a patch that was applied gives the text and the patch back. -/
theorem apply_inverse {p q : Patch} {text new : String} (h : p.apply text = .ok (new, q)) :
    q.apply new = .ok (text, p.inOrder) := by
  obtain ⟨cuts, rest, rfl, hp, rfl, rfl⟩ := apply_eq_ok_iff.mp h
  have hback := apply_edits (cuts.map Cut.swap) rest
  rw [Cut.after_map_swap, Cut.map_swap_swap] at hback
  rw [hp]
  exact hback

theorem utf8ByteSize_of_apply {p q : Patch} {text new : String} (h : p.apply text = .ok (new, q)) :
    (new.utf8ByteSize : Int) = text.utf8ByteSize + p.delta := by
  obtain ⟨cuts, rest, rfl, hp, rfl, -⟩ := apply_eq_ok_iff.mp h
  rw [utf8ByteSize_eq_byteSize, utf8ByteSize_eq_byteSize, String.toList_ofList,
    String.toList_ofList, ← delta_inOrder, hp]
  exact byteSize_after cuts rest 0

/-- The inverse of a patch that was applied takes the text back, and its own inverse is the patch
with its edits in order. Both change the length by as much, in opposite directions. -/
theorem apply_inverse_restores {p q : Patch} {text new : String}
    (h : p.apply text = .ok (new, q)) :
    q.apply new = .ok (text, p.inOrder) ∧
      p.inOrder.Perm p ∧ p.inOrder.Pairwise (fun a b => Edit.notAfter a b = true) ∧
      (new.utf8ByteSize : Int) = text.utf8ByteSize + p.delta ∧ q.delta = - p.delta := by
  refine ⟨apply_inverse h, p.inOrder_perm, p.pairwise_inOrder, utf8ByteSize_of_apply h, ?_⟩
  obtain ⟨cuts, rest, -, hp, -, rfl⟩ := apply_eq_ok_iff.mp h
  rw [← delta_inOrder p, hp]
  exact delta_edits_swap cuts 0

/-- Two insertions and two deletions at one offset, pushed out of order. -/
theorem apply_inverse_restores_of_ties :
    let p : Patch := [⟨⟨4, 6⟩, ""⟩, ⟨⟨2, 4⟩, ""⟩, ⟨⟨4, 4⟩, "x"⟩, ⟨⟨2, 2⟩, "é"⟩, ⟨⟨2, 2⟩, "y"⟩]
    let q : Patch := [⟨⟨2, 4⟩, ""⟩, ⟨⟨4, 5⟩, ""⟩, ⟨⟨5, 5⟩, "cd"⟩, ⟨⟨5, 6⟩, ""⟩, ⟨⟨6, 6⟩, "ef"⟩]
    p.apply "abcdefg" = .ok ("abéyxg", q) ∧ q.apply "abéyxg" = .ok ("abcdefg", p.inOrder) := by
  have h : Patch.apply [⟨⟨4, 6⟩, ""⟩, ⟨⟨2, 4⟩, ""⟩, ⟨⟨4, 4⟩, "x"⟩, ⟨⟨2, 2⟩, "é"⟩, ⟨⟨2, 2⟩, "y"⟩]
      "abcdefg" = .ok ("abéyxg",
        [⟨⟨2, 4⟩, ""⟩, ⟨⟨4, 5⟩, ""⟩, ⟨⟨5, 5⟩, "cd"⟩, ⟨⟨5, 6⟩, ""⟩, ⟨⟨6, 6⟩, "ef"⟩]) := by cbv
  exact ⟨h, (apply_inverse_restores h).1⟩

end Patch

end Adequacy
