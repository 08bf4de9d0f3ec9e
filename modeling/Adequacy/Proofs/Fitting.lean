import Adequacy.Mutation
import Adequacy.Proofs.Lookup
import Adequacy.Proofs.PatchInverse

namespace Adequacy

instance (text : List Char) (s : Span) : Decidable (s.In text) :=
  decidable_of_iff
    (isBoundary s.start text = true ∧ isBoundary s.stop text = true ∧ s.start ≤ s.stop)
    ⟨fun ⟨h1, h2, h3⟩ => ⟨h1, h2, h3⟩,
      fun h => ⟨h.start_isBoundary, h.stop_isBoundary, h.start_le_stop⟩⟩

namespace Span.In

variable {s : Span}

theorem exists_text {text : List Char} (h : s.In text) : ∃ as mid bs, text = as ++ mid ++ bs ∧
    byteSize as = s.start ∧ byteSize as + byteSize mid = s.stop := by
  obtain ⟨as, bs, htext, hstart⟩ := isBoundary_iff.mp h.start_isBoundary
  obtain ⟨as', bs', htext', hstop⟩ := isBoundary_iff.mp h.stop_isBoundary
  have hle := h.start_le_stop
  obtain ⟨mid, hmid, hrest⟩ := exists_append_of_byteSize_le (htext.symm.trans htext') (by omega)
  refine ⟨as, mid, bs', by rw [htext, hrest, List.append_assoc], hstart, ?_⟩
  rw [← hstop, hmid, byteSize_append]

theorem text?_isSome {source : String} (h : s.In source.toList) : (s.text? source).isSome := by
  obtain ⟨as, mid, bs, htext, hstart, hstop⟩ := h.exists_text
  refine Option.isSome_iff_exists.mpr ⟨String.ofList mid, slice?_eq_some_iff.mpr ⟨as, bs, ?_⟩⟩
  rw [String.toList_ofList]
  exact ⟨htext, hstart, hstop⟩

end Span.In

/-- One of the edits ends before the other one begins. -/
def Edit.Apart (a b : Edit) : Prop := a.span.stop ≤ b.span.start ∨ b.span.stop ≤ a.span.start

theorem Edit.Apart.symm {a b : Edit} (h : a.Apart b) : b.Apart a := Or.symm h

namespace Patch

/-- The edits lie in a span of the text, split no character, and are apart from each other. -/
structure FitsIn (text : List Char) (s : Span) (p : Patch) : Prop where
  edit_in : ∀ e ∈ p, e.span.In text
  inside : ∀ e ∈ p, s.start ≤ e.span.start ∧ e.span.stop ≤ s.stop
  apart : p.Pairwise Edit.Apart

variable {text : List Char} {s t : Span} {p q : Patch}

namespace FitsIn

theorem nil : FitsIn text s [] := ⟨by simp, by simp, .nil⟩

theorem single {e : Edit} (hin : e.span.In text) (hs : s.start ≤ e.span.start)
    (ht : e.span.stop ≤ s.stop) : FitsIn text s [e] :=
  ⟨by simpa using hin, by simpa using ⟨hs, ht⟩, List.pairwise_singleton _ _⟩

theorem mono (h : FitsIn text s p) (hs : t.start ≤ s.start) (ht : s.stop ≤ t.stop) :
    FitsIn text t p :=
  ⟨h.edit_in, fun e he => ⟨hs.trans (h.inside e he).1, (h.inside e he).2.trans ht⟩, h.apart⟩

/-- Patches of two parts of a text that do not overlap are a patch together. -/
theorem append {u : Span} (hp : FitsIn text s p) (hq : FitsIn text t q)
    (h : s.stop ≤ t.start ∨ t.stop ≤ s.start) (hs : u.start ≤ s.start ∧ s.stop ≤ u.stop)
    (ht : u.start ≤ t.start ∧ t.stop ≤ u.stop) : FitsIn text u (p ++ q) := by
  refine ⟨?_, ?_, List.pairwise_append.mpr ⟨hp.apart, hq.apart, fun a ha b hb => ?_⟩⟩
  · intro e he
    exact (List.mem_append.mp he).elim (hp.edit_in e) (hq.edit_in e)
  · intro e he
    rcases List.mem_append.mp he with he | he
    · have := hp.inside e he
      omega
    · have := hq.inside e he
      omega
  · have h1 := hp.inside a ha
    have h2 := hq.inside b hb
    unfold Edit.Apart
    omega

/-- A patch goes on behind the part of the text that it fits in. -/
theorem extend {lo mid : Nat} (hp : FitsIn text ⟨lo, mid⟩ p) (hq : FitsIn text t q) (hlo : lo ≤ mid)
    (hmid : mid ≤ t.start) (ht : t.start ≤ t.stop) : FitsIn text ⟨lo, t.stop⟩ (p ++ q) :=
  hp.append hq (.inl hmid) ⟨Nat.le_refl _, hmid.trans ht⟩ ⟨hlo.trans hmid, Nat.le_refl _⟩

end FitsIn

theorem check_of_in {e : Edit} (h : e.span.In text) : Edit.check text e = .ok () := by
  obtain ⟨as, mid, bs, htext, hstart, hstop⟩ := h.exists_text
  exact Edit.check_eq_ok_iff.mpr ⟨as, mid, bs, by rw [htext, List.append_assoc], hstart, hstop⟩

/-- Ordered edits that none starts behind its end pass the check for overlaps exactly if each ends
before all later ones begin. -/
theorem checkOverlap_eq_ok_iff (h : ∀ e ∈ p, e.span.start ≤ e.span.stop) :
    checkOverlap p = .ok () ↔ p.Pairwise fun a b => a.span.stop ≤ b.span.start := by
  induction p with
  | nil => simp [checkOverlap]
  | cons a later ih =>
    have hlater := ih fun e he => h e (List.mem_cons_of_mem a he)
    rw [List.pairwise_cons]
    cases later with
    | nil => simp [checkOverlap]
    | cons b later =>
      constructor
      · intro ho
        obtain ⟨hab, ho⟩ := checkOverlap_cons_cons ho
        have hpair := hlater.mp ho
        have hb := h b (List.mem_cons_of_mem a List.mem_cons_self)
        refine ⟨fun e he => ?_, hpair⟩
        rcases List.mem_cons.mp he with rfl | he
        · exact hab
        · exact (hab.trans hb).trans ((List.pairwise_cons.mp hpair).1 e he)
      · rintro ⟨hfirst, hpair⟩
        have hab := hfirst b List.mem_cons_self
        rw [checkOverlap, if_neg (by omega)]
        exact hlater.mpr hpair

theorem exists_of_checkOverlap_error {x : PatchError} (h : checkOverlap p = .error x) :
    ∃ a b, x = .overlap a b := by
  fun_induction checkOverlap p with
  | case1 a b rest hgt =>
    cases h
    exact ⟨_, _, rfl⟩
  | case2 a b rest hle ih => exact ih h
  | case3 => cases h

section placed

variable {source : String} (h : ∀ e ∈ p, e.span.In source.toList)

include h

/-- Edits that lie in a text are apart exactly if in order each ends before the next one begins. -/
theorem pairwise_inOrder_iff :
    (p.inOrder.Pairwise fun a b => a.span.stop ≤ b.span.start) ↔ p.Pairwise Edit.Apart := by
  rw [← p.inOrder_perm.pairwise_iff Edit.Apart.symm]
  constructor
  · exact fun hp => hp.imp Or.inl
  · intro hp
    refine (List.Pairwise.and_mem.mp (p.pairwise_inOrder.and hp)).imp ?_
    rintro a b ⟨ha, hb, horder, hab⟩
    have hle := (h a (p.inOrder_perm.mem_iff.mp ha)).start_le_stop
    have hle' := (h b (p.inOrder_perm.mem_iff.mp hb)).start_le_stop
    simp only [Edit.notAfter, Bool.or_eq_true, Bool.and_eq_true, decide_eq_true_eq,
      beq_iff_eq] at horder
    unfold Edit.Apart at hab
    omega

/-- Edits that lie in the text can be refused for an overlap alone. -/
theorem apply_of_in : p.apply source = (checkOverlap p.inOrder).map fun _ =>
    (String.ofList (splice source.toList 0 p.inOrder), undo source.toList 0 p.inOrder) := by
  have hcheck : p.inOrder.forM (Edit.check source.toList) = .ok () :=
    forM_check_eq_ok_iff.mpr fun e he => check_of_in (h e (p.inOrder_perm.mem_iff.mp he))
  simp only [apply, hcheck]
  cases checkOverlap p.inOrder <;> rfl

theorem exists_of_apply_error {x : PatchError} (hx : p.apply source = .error x) :
    ∃ a b, x = .overlap a b := by
  rw [apply_of_in h] at hx
  cases ho : checkOverlap p.inOrder with
  | error y =>
    rw [ho] at hx
    cases hx
    exact exists_of_checkOverlap_error ho
  | ok u =>
    rw [ho] at hx
    cases hx

/-- Edits that lie in the text are applied exactly if they are apart from each other. -/
theorem apply_ok_iff : (∃ r, p.apply source = .ok r) ↔ p.Pairwise Edit.Apart := by
  have hstart : ∀ e ∈ p.inOrder, e.span.start ≤ e.span.stop :=
    fun e he => (h e (p.inOrder_perm.mem_iff.mp he)).start_le_stop
  rw [apply_of_in h, ← pairwise_inOrder_iff h, ← checkOverlap_eq_ok_iff hstart]
  cases checkOverlap p.inOrder with
  | error y => simp [Except.map]
  | ok u => simp [Except.map]

end placed

end Patch

end Adequacy
