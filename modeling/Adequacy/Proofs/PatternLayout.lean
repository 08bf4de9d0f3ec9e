import Adequacy.Proofs.Parsing

namespace Adequacy

namespace Node

variable {text : List Char} {n m : Node} {ns ms : List Node}

/-- A node that can take the place of another one. It is laid out if that is, and shows nothing
new. -/
structure Replaces (text : List Char) (m n : Node) : Prop where
  span_eq : m.span = n.span
  laid (h : n.Everywhere (Laid text)) : m.Everywhere (Laid text)
  fewer : Fewer [m] [n]

/-- Nodes that can take the places of others. -/
structure AllReplace (text : List Char) (ms ns : List Node) : Prop where
  laidIn {lo hi : Nat} (h : AllLaidIn text lo hi ns) : AllLaidIn text lo hi ms
  fewer : Fewer ms ns

theorem Replaces.refl (text : List Char) (n : Node) : n.Replaces text n := ⟨rfl, id, .refl _⟩

theorem AllReplace.refl (text : List Char) (ns : List Node) : AllReplace text ns ns :=
  ⟨id, .refl _⟩

theorem Replaces.cons (h : m.Replaces text n) (hs : AllReplace text ms ns) :
    AllReplace text (m :: ms) (n :: ns) := by
  refine ⟨fun hlaid => ?_, h.fewer.cons hs.fewer⟩
  simp only [allLaidIn_cons] at hlaid ⊢
  obtain ⟨⟨hstart, hstop, hn⟩, hns⟩ := hlaid
  exact ⟨⟨by rw [h.span_eq]; exact hstart, by rw [h.span_eq]; exact hstop, h.laid hn⟩, hs.laidIn hns⟩

theorem Replaces.single (h : m.Replaces text n) : AllReplace text [m] [n] := h.cons (.refl text [])

/-- A node that nothing is looked at for can take the place of another one if its children can take
those of the other's. -/
theorem AllReplace.node (h : AllReplace text m.children n.children) (hs : m.span = n.span)
    (hm : m.isMutable = false) (hcall : ∀ assertion, m.isCallOf assertion = false)
    (hn : ∀ assertion, n.isCallOf assertion = false) (ha : n.isArrow = false)
    (hshape : m.Shaped text) : m.Replaces text n where
  span_eq := hs
  laid hlaid := hlaid.replace hs (h.laidIn (allLaidIn_children hlaid ha)) hshape
  fewer := fewer_of_children hm hcall hn h.fewer

end Node

namespace Parser

variable {text : List Char} {c : Surroundings} {s t : Progress}

@[grind →] theorem Takes.eq_of_noteTarget {fault : SyntaxFault} {n : Node} {a : Unit}
    (h : Takes text c s (noteTarget fault n) a t) : t = s := by
  simp [noteTarget] at h
  exact h.2.2

@[simp] theorem takes_noteCommaAfterRest {comma : Option Span} {a : Unit} :
    Takes text c s (noteCommaAfterRest comma) a t ↔ comma = none ∧ (s.Fits text ∧ s.Clean) ∧ t = s := by
  cases comma <;> simp [noteCommaAfterRest]

@[simp] theorem takes_trailingComma? {α : Type} {start : Nat} {f : Option Span → Parser α} {a : α} :
    Takes text c s (trailingComma? start >>= f) a t ↔
      Takes text c s (f (s.trailingCommas.lookup start)) a t := takes_bind_of_run rfl

/-- Reading the node as a pattern leaves the place, and what is read can take the node's. -/
def Repatterns (text : List Char) (n : Node) : Prop :=
  ∀ ⦃use c s m t⦄, Takes text c s (toPattern use n) m t → t = s ∧ m.Replaces text n

@[grind →] theorem Takes.eq_of_checkElement {use : PatternUse} {n : Node} {a : Unit}
    (h : Takes text c s (checkElement use n) a t) : t = s := by
  unfold checkElement at h
  split at h
  all_goals first
    | exact h.eq_of_noteTarget
    | (simp at h; try exact h.2)

/-- A node without a role of its own is replaced with its parts. -/
theorem replaces_other {span : Span} {form form' : Form} {parts parts' : List Node}
    (h : Node.AllReplace text parts' parts) :
    (Node.other span form' parts').Replaces text (.other span form parts) :=
  Node.AllReplace.node h rfl rfl (fun _ => rfl) (fun _ => rfl) rfl trivial

/-- Reading elements as those of a pattern leaves the place. -/
theorem takes_toElements {use : PatternUse} {start : Nat} {es ns : List Node}
    (he : ∀ e ∈ es, Repatterns text e ∧ ∀ d ∈ e.children, Repatterns text d)
    (h : Takes text c s (toElements use start es) ns t) : t = s ∧ Node.AllReplace text ns es := by
  induction es generalizing ns s with
  | nil =>
    simp [toElements] at h
    obtain ⟨-, rfl, rfl⟩ := h
    exact ⟨rfl, .refl text []⟩
  | cons e rest ih =>
    have hrest := fun e hm => he e (List.mem_cons_of_mem _ hm)
    unfold toElements at h
    split at h
    next => contradiction
    next span e rest' heq =>
      cases heq
      simp at h
      obtain ⟨rfl, -, -, m, hm, -, rfl⟩ := h
      obtain ⟨ht, hreplaces⟩ := (he _ List.mem_cons_self).2 e (by simp [Node.children]) hm
      exact ⟨ht, (replaces_other hreplaces.single).single⟩
    next heq =>
      cases heq
      simp at h
      obtain ⟨ms, hms, -, rfl⟩ := h
      obtain ⟨ht, hreplace⟩ := ih hrest hms
      exact ⟨ht, (Node.Replaces.refl text _).cons hreplace⟩
    next heq =>
      cases heq
      simp at h
      obtain ⟨m, u, hm, ms, hms, -, rfl⟩ := h
      obtain ⟨hu, hreplaces⟩ := (he e List.mem_cons_self).1 hm
      obtain ⟨ht, hreplace⟩ := ih hrest hms
      exact ⟨ht.trans hu, hreplaces.cons hreplace⟩

/-- Reading a member as one of a pattern leaves the place. -/
theorem takes_toMember {use : PatternUse} {start : Nat} {isLast : Bool} {span : Span} {form : Form}
    {parts : List Node} {m : Node} (hp : ∀ e ∈ parts, Repatterns text e)
    (h : Takes text c s (toMember use start isLast span form parts) m t) :
    t = s ∧ m.Replaces text (.other span form parts) := by
  unfold toMember at h
  split at h
  next value =>
    simp at h
    obtain ⟨m, hm, -, rfl⟩ := h
    obtain ⟨ht, hreplaces⟩ := hp value (by simp) hm
    exact ⟨ht, replaces_other hreplaces.single⟩
  next key value =>
    simp at h
    obtain ⟨m, hm, -, rfl⟩ := h
    obtain ⟨ht, hreplaces⟩ := hp value (by simp) hm
    exact ⟨ht, replaces_other ((Node.Replaces.refl text key).cons hreplaces.single)⟩
  next =>
    simp at h
    obtain ⟨-, rfl, rfl⟩ := h
    exact ⟨rfl, .refl text _⟩
  next =>
    simp at h
    obtain ⟨-, rfl, rfl⟩ := h
    exact ⟨rfl, Node.AllReplace.node (.refl text _) rfl rfl (fun _ => rfl) (fun _ => rfl) rfl trivial⟩
  next e =>
    simp at h
    obtain ⟨-, -, h⟩ := h
    split at h
    next =>
      simp at h
      obtain ⟨-, rfl, rfl⟩ := h
      exact ⟨rfl, replaces_other (.refl text _)⟩
    next => simp at h
    next =>
      simp at h
      obtain ⟨m, hm, -, -, rfl⟩ := h
      obtain ⟨ht, hreplaces⟩ := hp e (by simp) hm
      exact ⟨ht, replaces_other hreplaces.single⟩
  next => simp at h

theorem takes_toMembers {use : PatternUse} {start : Nat} {es ns : List Node}
    (he : ∀ e ∈ es, ∀ d ∈ e.children, Repatterns text d)
    (h : Takes text c s (toMembers use start es) ns t) : t = s ∧ Node.AllReplace text ns es := by
  induction es generalizing ns s with
  | nil =>
    simp [toMembers] at h
    obtain ⟨-, rfl, rfl⟩ := h
    exact ⟨rfl, .refl text []⟩
  | cons e rest ih =>
    have hrest := fun e hm => he e (List.mem_cons_of_mem _ hm)
    unfold toMembers at h
    split at h
    next => contradiction
    next span form parts rest' heq =>
      cases heq
      simp at h
      obtain ⟨m, u, hm, ms, hms, -, rfl⟩ := h
      obtain ⟨hu, hreplaces⟩ := takes_toMember (he _ List.mem_cons_self) hm
      obtain ⟨ht, hreplace⟩ := ih hrest hms
      exact ⟨ht.trans hu, hreplaces.cons hreplace⟩
    next => simp at h

theorem repatterns_of_forall (n : Node)
    (hc : ∀ c ∈ n.children, Repatterns text c ∧ ∀ d ∈ c.children, Repatterns text d) :
    Repatterns text n := by
  intro use c s m t h
  have hsame (h : t = s ∧ m = n) : t = s ∧ m.Replaces text n := ⟨h.1, h.2 ▸ .refl text n⟩
  cases n with
  | name =>
    simp [toPattern] at h
    exact hsame (by grind)
  | array span elements =>
    simp [toPattern] at h
    obtain ⟨ns, hns, -, rfl⟩ := h
    obtain ⟨ht, hreplace⟩ := takes_toElements hc hns
    exact ⟨ht, Node.AllReplace.node hreplace rfl rfl (fun _ => rfl) (fun _ => rfl) rfl trivial⟩
  | object span members =>
    simp [toPattern] at h
    obtain ⟨ns, hns, -, rfl⟩ := h
    obtain ⟨ht, hreplace⟩ := takes_toMembers (fun e he => (hc e he).2) hns
    exact ⟨ht, Node.AllReplace.node hreplace rfl rfl (fun _ => rfl) (fun _ => rfl) rfl trivial⟩
  | assign span op target value =>
    simp [toPattern] at h
    have hdefaulted {target' : Node} (h : target'.Replaces text target) :
        (Node.defaulted span target' value).Replaces text (.assign span op target value) :=
      Node.AllReplace.node (h.cons (.refl text [value])) rfl rfl (fun _ => rfl) (fun _ => rfl) rfl
        trivial
    rcases h with ⟨-, -, rfl, rfl⟩ | ⟨-, -, ⟨-, -, rfl, rfl⟩ | ⟨-, m, hm, -, rfl⟩⟩
    · exact ⟨rfl, .refl text _⟩
    · exact ⟨rfl, hdefaulted (.refl text target)⟩
    · obtain ⟨ht, hreplaces⟩ := (hc target (by simp [Node.children])).1 hm
      exact ⟨ht, hdefaulted hreplaces⟩
  | _ =>
    simp [toPattern] at h
    exact hsame (by grind)

theorem repatterns (n : Node) : Repatterns text n := by
  have h : Repatterns text n ∧ ∀ c ∈ n.children, Repatterns text c := by
    induction n using Node.induct with
    | step n ih => exact ⟨repatterns_of_forall n ih, fun c hc => (ih c hc).1⟩
  exact h.1

theorem takes_assignmentTarget {n m : Node} {lo hi : Nat}
    (h : Takes text c s (assignmentTarget n) m t) (hn : n.Spans text lo hi) :
    t = s ∧ m.Spans text lo hi := by
  have hkeep {use : PatternUse} (h : Takes text c s (toPattern use n) m t) :
      t = s ∧ m.Spans text lo hi := by
    obtain ⟨ht, hreplaces⟩ := repatterns n h
    exact ⟨ht, by rw [hreplaces.span_eq]; exact hn.start_eq,
      by rw [hreplaces.span_eq]; exact hn.stop_eq, hreplaces.laid hn.laid,
      hn.kept.of_fewer hreplaces.fewer⟩
  unfold assignmentTarget at h
  split at h
  · exact hkeep h
  · exact hkeep h
  · simp at h
    obtain ⟨h, -, rfl⟩ := h
    exact ⟨h.eq_of_noteTarget, hn⟩

theorem takes_toParameters_go {comma : Option Span} {items params : List Node}
    (h : Takes text c s (toParameters.go comma items) params t) :
    Node.AllReplace text params items := by
  induction items generalizing params s with
  | nil =>
    simp [toParameters.go] at h
    obtain ⟨-, rfl, -⟩ := h
    exact .refl text []
  | cons e rest ih =>
    unfold toParameters.go at h
    split at h
    next => contradiction
    next span e rest' heq =>
      cases heq
      simp at h
      obtain ⟨rfl, -, -, m, hm, -, rfl⟩ := h
      exact (replaces_other (repatterns e hm).2.single).single
    next heq =>
      cases heq
      simp at h
      obtain ⟨m, u, hm, ms, hms, -, rfl⟩ := h
      exact (repatterns e hm).2.cons (ih hms)

/-- What is read again as parameters can take the place of what stood between the parentheses. -/
theorem takes_toParameters {comma : Option Span} {items params : List Node}
    (h : Takes text c s (toParameters comma items) params t) :
    Node.AllReplace text params items := by
  simp [toParameters] at h
  obtain ⟨ps, u, hps, hp⟩ : ∃ ps u, Takes text c s (toParameters.go comma items) ps u ∧
      params = ps := by grind
  rw [hp]
  exact takes_toParameters_go hps

end Parser

end Adequacy
