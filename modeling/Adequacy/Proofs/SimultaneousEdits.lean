import Adequacy.Proofs.Isolation
import Adequacy.Proofs.Weaving

namespace Adequacy

theorem Span.eq_point {s : Span} (h : s.stop = s.start) : s = .point s.start :=
  congrArg (Span.mk s.start) h

theorem Edit.check_eq_ok_iff_in {cs : List Char} {e : Edit} : Edit.check cs e = .ok () ↔
    e.span.start ≤ e.span.stop ∧ e.span.stop ≤ byteSize cs ∧
      isBoundary e.span.start cs = true ∧ isBoundary e.span.stop cs = true := by
  unfold Edit.check
  split
  next h => simp only [reduceCtorEq, false_iff]; omega
  next h =>
    have hin : e.span.start ≤ e.span.stop ∧ e.span.stop ≤ byteSize cs := by omega
    cases isBoundary e.span.start cs <;> cases isBoundary e.span.stop cs <;> simp [hin]

namespace Patch

variable {p q : Patch} {pos offset : Nat} {as bs cs : List Char} {e : Edit}

/-- What is written in front of the character at an offset: the insertions there, in the order of
the patch, and behind them what replaces the text from there on. -/
def textsFrom (p : Patch) (offset : Nat) : List Char :=
  (p.filter (·.span = .point offset)).flatMap (·.text.toList) ++
    (p.filter fun e => e.span.start = offset ∧ offset < e.span.stop).flatMap (·.text.toList)

/-- Whether the character at an offset is replaced. -/
def replaces (p : Patch) (offset : Nat) : Bool :=
  p.any fun e => e.span.start ≤ offset && offset < e.span.stop

/-- A text that begins at offset `pos` with all edits made at once, each where it stands. -/
def substituted (p : Patch) (pos : Nat) : List Char → List Char
  | [] => p.textsFrom pos
  | c :: cs =>
    p.textsFrom pos ++ (if p.replaces pos then [] else [c]) ++ p.substituted (pos + c.utf8Size) cs

section walk

theorem textsFrom_eq_nil (h : ∀ e ∈ p, e.span.start ≠ offset) : p.textsFrom offset = [] := by
  have hpoint : p.filter (·.span = .point offset) = [] :=
    List.filter_eq_nil_iff.mpr fun e he hs => h e he (by simp [of_decide_eq_true hs, Span.point])
  have hlong : (p.filter fun e => e.span.start = offset ∧ offset < e.span.stop) = [] :=
    List.filter_eq_nil_iff.mpr fun e he hs => h e he (of_decide_eq_true hs).1
  rw [textsFrom, hpoint, hlong]
  rfl

theorem replaces_eq_false (h : ∀ e ∈ p, offset < e.span.start ∨ e.span.stop ≤ offset) :
    p.replaces offset = false := by
  rw [replaces, List.any_eq_false]
  intro e he
  have := h e he
  simp only [Bool.and_eq_true, decide_eq_true_eq]
  omega

theorem textsFrom_cons_of_ne (h : e.span.start ≠ offset) :
    textsFrom (e :: p) offset = p.textsFrom offset := by
  have hpoint : e.span ≠ .point offset := fun hs => h (by rw [hs]; rfl)
  rw [textsFrom, List.filter_cons_of_neg (by simpa using hpoint),
    List.filter_cons_of_neg (by simp [h])]
  rfl

/-- An insertion in front of others is written first. -/
theorem textsFrom_cons_point (h : e.span = .point offset) :
    textsFrom (e :: p) offset = e.text.toList ++ p.textsFrom offset := by
  have hlong : ¬ (e.span.start = offset ∧ offset < e.span.stop) := by
    rw [h]
    exact fun hs => Nat.lt_irrefl _ hs.2
  rw [textsFrom, List.filter_cons_of_pos (by simpa using h),
    List.filter_cons_of_neg (by simpa using hlong), List.flatMap_cons, List.append_assoc]
  rfl

theorem textsFrom_cons_long (hs : e.span.start = offset) (ht : offset < e.span.stop)
    (h : ∀ d ∈ p, d.span.start ≠ offset) : textsFrom (e :: p) offset = e.text.toList := by
  have hnone := textsFrom_eq_nil h
  have hpoint : e.span ≠ .point offset := by
    intro hp
    rw [hp] at ht
    exact Nat.lt_irrefl _ ht
  rw [textsFrom, List.append_eq_nil_iff] at hnone
  rw [textsFrom, List.filter_cons_of_neg (by simpa using hpoint),
    List.filter_cons_of_pos (by simp [hs, ht]), List.flatMap_cons, hnone.1, hnone.2]
  simp

theorem replaces_cons (e : Edit) (p : Patch) (offset : Nat) : replaces (e :: p) offset =
    ((e.span.start ≤ offset && offset < e.span.stop) || p.replaces offset) := rfl

/-- Only what is written and replaced from the first offset on counts. -/
theorem substituted_congr (h : ∀ o, pos ≤ o →
    p.textsFrom o = q.textsFrom o ∧ p.replaces o = q.replaces o) :
    p.substituted pos cs = q.substituted pos cs := by
  induction cs generalizing pos with
  | nil => exact (h pos (Nat.le_refl _)).1
  | cons c cs ih =>
    obtain ⟨htexts, hreplaces⟩ := h pos (Nat.le_refl _)
    rw [substituted, substituted, htexts, hreplaces, ih fun o ho => h o (by omega)]

/-- A text in front of all edits is kept. -/
theorem substituted_front (h : ∀ e ∈ p, pos + byteSize as ≤ e.span.start) :
    p.substituted pos (as ++ bs) = as ++ p.substituted (pos + byteSize as) bs := by
  induction as generalizing pos with
  | nil => rfl
  | cons c as ih =>
    have hc := c.utf8Size_pos
    simp only [byteSize_cons] at h ⊢
    have htexts : p.textsFrom pos = [] := textsFrom_eq_nil fun e he => by
      have := h e he
      omega
    have hreplaces : p.replaces pos = false := replaces_eq_false fun e he => by
      have := h e he
      omega
    rw [List.cons_append, substituted, htexts, hreplaces,
      ih fun e he => by rw [Nat.add_assoc]; exact h e he, Nat.add_assoc]
    rfl

/-- A text that is replaced, and in which no edit begins, is gone. -/
theorem substituted_replaced
    (h : ∀ o, pos ≤ o → o < pos + byteSize as → p.textsFrom o = [] ∧ p.replaces o = true) :
    p.substituted pos (as ++ bs) = p.substituted (pos + byteSize as) bs := by
  induction as generalizing pos with
  | nil => rfl
  | cons c as ih =>
    have hc := c.utf8Size_pos
    simp only [byteSize_cons] at h ⊢
    obtain ⟨htexts, hreplaces⟩ := h pos (Nat.le_refl _) (by omega)
    rw [List.cons_append, substituted, htexts, hreplaces,
      ih fun o ho hlt => h o (by omega) (by omega), Nat.add_assoc]
    rfl

/-- The first edit of all is made, and the others behind it. -/
theorem substituted_cons {old : List Char} (hold : e.span.start + byteSize old = e.span.stop)
    (h : ∀ d ∈ p, e.span.stop ≤ d.span.start) :
    substituted (e :: p) e.span.start (old ++ bs) =
      e.text.toList ++ p.substituted e.span.stop bs := by
  have hbehind (o : Nat) (ho : e.span.start < o) (hstop : e.span.stop ≤ o) :
      textsFrom (e :: p) o = p.textsFrom o ∧ replaces (e :: p) o = p.replaces o := by
    refine ⟨textsFrom_cons_of_ne (by omega), ?_⟩
    rw [replaces_cons, decide_eq_false (show ¬ o < e.span.stop by omega), Bool.and_false,
      Bool.false_or]
  cases old with
  | nil =>
    have hstop : e.span.stop = e.span.start := hold.symm
    have htexts := textsFrom_cons_point (p := p) (Span.eq_point hstop)
    have hreplaces : replaces (e :: p) e.span.start = p.replaces e.span.start := by
      rw [replaces_cons, hstop, decide_eq_false (Nat.lt_irrefl _), Bool.and_false, Bool.false_or]
    rw [hstop, List.nil_append]
    cases bs with
    | nil => exact htexts
    | cons c bs =>
      have hc := c.utf8Size_pos
      rw [substituted, substituted, htexts, hreplaces,
        substituted_congr fun o ho => hbehind o (by omega) (by omega)]
      simp
  | cons c old =>
    have hc := c.utf8Size_pos
    rw [byteSize_cons] at hold
    have htexts : textsFrom (e :: p) e.span.start = e.text.toList :=
      textsFrom_cons_long rfl (by omega) fun d hd => by
        have := h d hd
        omega
    have hin (o : Nat) (ho : e.span.start ≤ o) (hlt : o < e.span.stop) :
        replaces (e :: p) o = true := by
      rw [replaces_cons, decide_eq_true ho, decide_eq_true hlt]
      rfl
    have hgone : substituted (e :: p) (e.span.start + c.utf8Size) (old ++ bs) =
        substituted (e :: p) (e.span.start + c.utf8Size + byteSize old) bs := by
      refine substituted_replaced fun o ho hlt => ⟨?_, hin o (by omega) (by omega)⟩
      rw [textsFrom_cons_of_ne (by omega)]
      exact textsFrom_eq_nil fun d hd => by
        have := h d hd
        omega
    rw [List.cons_append, substituted, htexts, hin _ (Nat.le_refl _) (by omega), hgone,
      show e.span.start + c.utf8Size + byteSize old = e.span.stop by omega,
      substituted_congr fun o ho => hbehind o (by omega) ho]
    simp

@[simp] theorem substituted_nil (pos : Nat) (cs : List Char) : substituted [] pos cs = cs := by
  induction cs generalizing pos with
  | nil => rfl
  | cons c cs ih =>
    rw [substituted, ih]
    rfl

/-- Cuts one behind the other are what their edits make at once. -/
theorem substituted_edits (cuts : List Cut) (rest : List Char) (pos : Nat) :
    substituted (Cut.edits pos cuts) pos (Cut.before cuts rest) = Cut.after cuts rest := by
  induction cuts generalizing pos with
  | nil => exact substituted_nil pos rest
  | cons c later ih =>
    let start := pos + byteSize c.kept
    let stop := start + byteSize c.old
    have hfront : ∀ e ∈ Cut.edits pos (c :: later), pos + byteSize c.kept ≤ e.span.start := by
      intro e he
      rcases List.mem_cons.mp he with rfl | he
      · exact Nat.le_refl _
      · exact (Nat.le_add_right start (byteSize c.old)).trans (Cut.mem_edits he).1
    have hfirst : substituted (Cut.edits pos (c :: later)) start
        (c.old ++ Cut.before later rest) = (String.ofList c.new).toList ++
          substituted (Cut.edits stop later) stop (Cut.before later rest) :=
      substituted_cons (e := ⟨⟨start, stop⟩, String.ofList c.new⟩) rfl
        fun d hd => (Cut.mem_edits hd).1
    rw [Cut.before, substituted_front hfront, hfirst, ih, Cut.after_cons, String.toList_ofList]

end walk

section order

/-- Edits that stand in each other's way are alone, so their order is no matter. -/
theorem filter_eq_of_clash {clash : Edit → Bool} (hperm : q.Perm p) (hp : p.Pairwise Edit.Apart)
    (h : ∀ a ∈ p, ∀ b ∈ p, clash a = true → clash b = true → ¬ a.Apart b) :
    q.filter clash = p.filter clash := by
  have hsame : (q.filter clash).Perm (p.filter clash) := hperm.filter clash
  have hapart : (p.filter clash).Pairwise Edit.Apart := hp.sublist List.filter_sublist
  rcases hone : p.filter clash with - | ⟨a, - | ⟨b, rest⟩⟩
  · rw [hone] at hsame
    exact hsame.eq_nil
  · rw [hone] at hsame
    exact List.perm_singleton.mp hsame
  · have hmem {x : Edit} (hx : x ∈ a :: b :: rest) : x ∈ p ∧ clash x = true :=
      List.mem_filter.mp (hone ▸ hx)
    rw [hone] at hapart
    obtain ⟨ha, hca⟩ := hmem (x := a) (by simp)
    obtain ⟨hb, hcb⟩ := hmem (x := b) (by simp)
    exact absurd ((List.pairwise_cons.mp hapart).1 b (.head _)) (h a ha b hb hca hcb)

/-- Sorting keeps the edits of one span in the order of the patch. -/
theorem filter_inOrder (p : Patch) (s : Span) :
    p.inOrder.filter (·.span = s) = p.filter (·.span = s) := by
  refine filter_mergeSort Edit.notAfter_trans Edit.notAfter_total
    (List.pairwise_of_forall_mem_list fun a ha b hb => ?_)
  have ha : a.span = s := of_decide_eq_true (List.mem_filter.mp ha).2
  have hb : b.span = s := of_decide_eq_true (List.mem_filter.mp hb).2
  rw [Edit.notAfter_iff, ha, hb]
  exact .inr ⟨rfl, Nat.le_refl _⟩

/-- Edits that are apart are made at once as they are made in order. -/
theorem substituted_inOrder (hp : p.Pairwise Edit.Apart) (pos : Nat) (cs : List Char) :
    p.inOrder.substituted pos cs = p.substituted pos cs := by
  refine substituted_congr fun o _ => ⟨?_, ?_⟩
  · have hlong : (p.inOrder.filter fun e => e.span.start = o ∧ o < e.span.stop) =
        p.filter fun e => e.span.start = o ∧ o < e.span.stop := by
      refine filter_eq_of_clash p.inOrder_perm hp fun a _ b _ ha hb hab => ?_
      have ha := of_decide_eq_true ha
      have hb := of_decide_eq_true hb
      unfold Edit.Apart at hab
      omega
    rw [textsFrom, textsFrom, hlong, filter_inOrder]
  · exact p.inOrder_perm.any_eq

/-- The places of the edits in order do not depend on the order of the patch. -/
theorem spans_inOrder_of_perm (h : q.Perm p) :
    q.inOrder.map Edit.span = p.inOrder.map Edit.span := by
  have hperm : (q.inOrder.map Edit.span).Perm (p.inOrder.map Edit.span) :=
    ((q.inOrder_perm.trans h).trans p.inOrder_perm.symm).map Edit.span
  have hsorted (p : Patch) : (p.inOrder.map Edit.span).Pairwise fun s t =>
      s.start < t.start ∨ s.start = t.start ∧ s.stop ≤ t.stop :=
    List.pairwise_map.mpr (p.pairwise_inOrder.imp fun h => Edit.notAfter_iff.mp h)
  refine hperm.eq_of_pairwise (fun s t _ _ hst hts => ?_) (hsorted q) (hsorted p)
  obtain ⟨a, b⟩ := s
  obtain ⟨c, d⟩ := t
  dsimp only at hst hts
  rw [show a = c by omega, show b = d by omega]

/-- Patches with the same edits are the same in order, if the edits are apart and the insertions at
one offset are in the same order. -/
theorem inOrder_of_perm (h : q.Perm p) (hp : p.Pairwise Edit.Apart)
    (hle : ∀ e ∈ p, e.span.start ≤ e.span.stop)
    (hpoints : ∀ o, q.filter (·.span = .point o) = p.filter (·.span = .point o)) :
    q.inOrder = p.inOrder := by
  refine eq_of_filter_eq (spans_inOrder_of_perm h) fun s => ?_
  rw [filter_inOrder, filter_inOrder]
  by_cases hs : s.start = s.stop
  · rw [Span.eq_point hs.symm]
    exact hpoints s.start
  · refine filter_eq_of_clash h hp fun a ha b hb has hbs hab => ?_
    have hle := hle a ha
    rw [of_decide_eq_true has] at hle
    unfold Edit.Apart at hab
    rw [of_decide_eq_true has, of_decide_eq_true hbs] at hab
    omega

end order

section checks

variable {text : String}

theorem checkOverlap_eq_ok_iff_isChain :
    checkOverlap p = .ok () ↔ p.IsChain fun a b => a.span.stop ≤ b.span.start := by
  fun_induction checkOverlap p with
  | case1 a b rest h => simp [List.isChain_cons_cons, Nat.not_le.mpr h]
  | case2 a b rest h ih => rw [ih, List.isChain_cons_cons]; simp [Nat.not_lt.mp h]
  | case3 p h =>
    rcases p with - | ⟨a, - | ⟨b, rest⟩⟩
    · simp
    · simp
    · exact absurd rfl (h a b rest)

/-- The checks look at the places of the edits alone. -/
theorem forM_check_of_spans (h : q.map Edit.span = p.map Edit.span) :
    q.forM (Edit.check cs) = p.forM (Edit.check cs) := by
  induction q generalizing p with
  | nil => rw [List.map_eq_nil_iff.mp h.symm]
  | cons a q ih =>
    obtain ⟨b, p, rfl, hspan, hrest⟩ := List.map_eq_cons_iff.mp h.symm
    have hfirst : Edit.check cs a = Edit.check cs b := by
      unfold Edit.check
      rw [hspan]
    simp only [List.forM, hfirst, ih hrest.symm]

theorem checkOverlap_of_spans (h : q.map Edit.span = p.map Edit.span) :
    checkOverlap q = checkOverlap p := by
  induction q generalizing p with
  | nil => rw [List.map_eq_nil_iff.mp h.symm]
  | cons a q ih =>
    obtain ⟨a', p, rfl, ha, hrest⟩ := List.map_eq_cons_iff.mp h.symm
    cases q with
    | nil => rw [List.map_eq_nil_iff.mp hrest]; rfl
    | cons b q =>
      have hlater := ih hrest.symm
      obtain ⟨b', p, rfl, hb, -⟩ := List.map_eq_cons_iff.mp hrest
      rw [checkOverlap, checkOverlap, ha, hb, hlater]

theorem apply_isOk_iff : (∃ new q, p.apply text = .ok (new, q)) ↔
    (∀ e ∈ p, Edit.check text.toList e = .ok ()) ∧ checkOverlap p.inOrder = .ok () := by
  have hall : (∀ e ∈ p, Edit.check text.toList e = .ok ()) ↔
      p.inOrder.forM (Edit.check text.toList) = .ok () := by
    rw [forM_check_eq_ok_iff]
    exact forall_congr' fun e => by rw [p.inOrder_perm.mem_iff]
  rw [hall, apply]
  cases p.inOrder.forM (Edit.check text.toList) with
  | error x => simp [bind, Except.bind]
  | ok u =>
    cases checkOverlap p.inOrder with
    | error x => simp [bind, Except.bind]
    | ok v => simp [bind, Except.bind, pure, Except.pure]

theorem pairwise_apart_of_apply {new : String} (h : p.apply text = .ok (new, q)) :
    p.Pairwise Edit.Apart := by
  have hcheck := (apply_isOk_iff.mp ⟨new, q, h⟩).1
  refine (apply_ok_iff fun e he => ?_).mp ⟨_, h⟩
  obtain ⟨hle, -, hstart, hstop⟩ := Edit.check_eq_ok_iff_in.mp (hcheck e he)
  exact ⟨hstart, hstop, hle⟩

/-- The order in which edits are recorded matters for insertions at one offset alone. -/
theorem apply_of_perm (hperm : q.Perm p)
    (hpoints : ∀ o, q.filter (·.span = .point o) = p.filter (·.span = .point o)) :
    q.apply text = p.apply text := by
  have hspans := spans_inOrder_of_perm hperm
  by_cases hok : ∃ new r, p.apply text = .ok (new, r)
  · obtain ⟨new, r, h⟩ := hok
    have hle : ∀ e ∈ p, e.span.start ≤ e.span.stop := fun e he =>
      (Edit.check_eq_ok_iff_in.mp ((apply_isOk_iff.mp ⟨new, r, h⟩).1 e he)).1
    rw [apply, apply, inOrder_of_perm hperm (pairwise_apart_of_apply h) hle hpoints]
  · rw [apply, apply, forM_check_of_spans hspans, checkOverlap_of_spans hspans]
    cases hc : List.forM p.inOrder (Edit.check text.toList) with
    | error x => rfl
    | ok u =>
      cases ho : checkOverlap p.inOrder with
      | error x => rfl
      | ok v => exact absurd ⟨_, _, by rw [apply, hc, ho]; rfl⟩ hok

end checks

/-- A patch is applied exactly if every edit lies in the text and splits no character, and in order
none begins before the one in front of it ends. Then all its edits are made at once. The order in
which they were recorded matters for insertions at one offset alone. A text that a patch is not
applied to stays as it is. -/
theorem apply_substitutes (p : Patch) (text : String) :
    ((∃ new q, p.apply text = .ok (new, q)) ↔
      (∀ e ∈ p, e.span.start ≤ e.span.stop ∧ e.span.stop ≤ text.utf8ByteSize ∧
        isBoundary e.span.start text.toList = true ∧ isBoundary e.span.stop text.toList = true) ∧
      p.inOrder.IsChain fun a b => a.span.stop ≤ b.span.start) ∧
    (∀ new q, p.apply text = .ok (new, q) → new.toList = p.substituted 0 text.toList) ∧
    (∀ q : Patch, q.Perm p →
      (∀ o, q.filter (·.span = .point o) = p.filter (·.span = .point o)) →
        q.apply text = p.apply text) ∧
    ∀ x, p.apply text = .error x →
      ∀ (w : Workbench) (m : Mutation), w.working = text → m.patch = p →
        (w.perform m).working = text := by
  refine ⟨?_, fun new q h => ?_, fun q hperm hpoints => apply_of_perm hperm hpoints, ?_⟩
  · rw [apply_isOk_iff, checkOverlap_eq_ok_iff_isChain, utf8ByteSize_eq_byteSize]
    simp only [Edit.check_eq_ok_iff_in]
  · have hinOrder := substituted_inOrder (pairwise_apart_of_apply h) 0 text.toList
    obtain ⟨cuts, rest, rfl, horder, rfl, -⟩ := apply_eq_ok_iff.mp h
    rw [← hinOrder, horder, String.toList_ofList, String.toList_ofList]
    exact (substituted_edits cuts rest 0).symm
  · rintro x hx w m rfl rfl
    simp only [Workbench.perform, hx, Workbench.report]

/-- A replacement with two insertions at its start and one at its end, recorded from the back. -/
example : Patch.substituted [⟨⟨3, 3⟩, "z"⟩, ⟨⟨1, 3⟩, ""⟩, ⟨⟨1, 1⟩, "x"⟩, ⟨⟨1, 1⟩, "y"⟩] 0
    "aéb".toList = "axyzb".toList := by decide

end Patch

end Adequacy
