import Adequacy.Mutation

namespace Adequacy

/-- A span takes in another one. -/
def Span.Holds (outer inner : Span) : Prop := outer.start ≤ inner.start ∧ inner.stop ≤ outer.stop

namespace Node

/-- Whether a node can have mutations of its own. -/
def isMutable : Node → Bool
  | array _ parts | object _ parts | block _ parts => !parts.isEmpty
  | template .. | unary .. | update .. | binary .. | logical .. | assign .. | conditional ..
  | construct .. | chainMember .. | chainCall .. | ifElse .. | whileLoop .. | doWhile ..
  | forLoop .. => true
  | literal _ value => value != .null && value != .number
  | _ => false

theorem isMutable_of_mem_ofNode {source : String} {s : Standing} {n : Node} {m : Mutation}
    (h : m ∈ Mutation.ofNode source s n) : n.isMutable = true := by
  cases n with
  | literal span value => cases value <;> simp_all [Mutation.ofNode, Mutation.literal, isMutable]
  | array span parts | object span parts | block span parts =>
    cases parts <;> first | rfl | simp [Mutation.ofNode] at h
  | _ => first | rfl | simp [Mutation.ofNode] at h

variable {n m c : Node} {ns ms ns' ms' : List Node} {assertion : String} {s t : Span}

theorem isCallOf_of_isMutable (h : n.isMutable = true) : n.isCallOf assertion = false := by
  cases n <;> first | rfl | simp [isMutable] at h

/-- What a node's span is looked at for. -/
inductive Role where
  | mutated | skipped

variable {role : Role}

/-- The spans from a node down of the nodes that can be mutated, outside the calls of the assertion
function, and of these calls. -/
inductive Shows (assertion : String) : Role → Node → Span → Prop where
  | mutated {n : Node} (h : n.isMutable = true) : Shows assertion .mutated n n.span
  | skipped {n : Node} (h : n.isCallOf assertion = true) : Shows assertion .skipped n n.span
  | inChild {role : Role} {n c : Node} {s : Span} (hn : role = .mutated → n.isCallOf assertion = false)
      (hc : c ∈ n.children) (h : Shows assertion role c s) : Shows assertion role n s

/-- Nodes that show no span in a role that some others do not show in it. -/
def Fewer (ms ns : List Node) : Prop :=
  ∀ ⦃assertion role s⦄, ∀ m ∈ ms, m.Shows assertion role s → ∃ n ∈ ns, n.Shows assertion role s

theorem Fewer.refl (ns : List Node) : Fewer ns ns := fun _ _ _ n hn h => ⟨n, hn, h⟩

theorem Fewer.trans {ks : List Node} (h : Fewer ks ms) (h' : Fewer ms ns) : Fewer ks ns := by
  intro assertion role s k hk hs
  obtain ⟨m, hm, hs⟩ := h k hk hs
  exact h' m hm hs

theorem Fewer.append (h : Fewer ms ns) (h' : Fewer ms' ns') :
    Fewer (ms ++ ms') (ns ++ ns') := by
  intro assertion role s m hm hs
  rcases List.mem_append.mp hm with hm | hm
  · obtain ⟨n, hn, hs⟩ := h m hm hs
    exact ⟨n, List.mem_append_left _ hn, hs⟩
  · obtain ⟨n, hn, hs⟩ := h' m hm hs
    exact ⟨n, List.mem_append_right _ hn, hs⟩

theorem Fewer.both (h : Fewer ms ns) (h' : Fewer ms' ns) : Fewer (ms ++ ms') ns := fun _ _ _ m hm =>
  (List.mem_append.mp hm).elim (h m) (h' m)

theorem Fewer.cons (h : Fewer [m] [n]) (h' : Fewer ms ns) : Fewer (m :: ms) (n :: ns) := h.append h'

theorem fewer_children (hn : ∀ assertion, n.isCallOf assertion = false) : Fewer n.children [n] :=
  fun _ _ _ _ hc h => ⟨n, List.mem_singleton_self n, Shows.inChild (fun _ => hn _) hc h⟩

/-- A node that nothing is looked at for shows no more than its children. -/
theorem fewer_node (hm : m.isMutable = false) (hcall : ∀ assertion, m.isCallOf assertion = false)
    (h : Fewer m.children ns) : Fewer [m] ns := by
  intro assertion role s m' hm' hs
  cases List.mem_singleton.mp hm'
  cases hs with
  | mutated h => rw [hm] at h; cases h
  | skipped h => rw [hcall] at h; cases h
  | inChild _ hc hs => exact h _ hc hs

/-- A node that nothing is looked at for shows no more than another one with children like its own. -/
theorem fewer_of_children (hm : m.isMutable = false)
    (hcall : ∀ assertion, m.isCallOf assertion = false)
    (hn : ∀ assertion, n.isCallOf assertion = false) (h : Fewer m.children n.children) :
    Fewer [m] [n] := fewer_node hm hcall (h.trans (fewer_children hn))

/-- What the nodes show lies between two offsets, and no call is around a node that is mutated,
whichever function is skipped. -/
structure Kept (lo hi : Nat) (ns : List Node) : Prop where
  bounds : ∀ ⦃assertion role s⦄, ∀ n ∈ ns, n.Shows assertion role s → lo ≤ s.start ∧ s.stop ≤ hi
  filled : ∀ ⦃assertion s⦄, ∀ n ∈ ns, n.Shows assertion .mutated s → s.start < s.stop
  spared : ∀ ⦃assertion s t⦄, ∀ n ∈ ns, ∀ m ∈ ns, n.Shows assertion .mutated s →
    m.Shows assertion .skipped t → ¬ t.Holds s

variable {lo mid hi lo' hi' : Nat}

theorem kept_nil : Kept lo hi [] := ⟨nofun, nofun, nofun⟩

theorem Kept.mono (h : Kept lo hi ns) (hlo : lo' ≤ lo) (hhi : hi ≤ hi') : Kept lo' hi' ns :=
  ⟨fun _ _ _ n hn hs => ⟨Nat.le_trans hlo (h.bounds n hn hs).1, Nat.le_trans (h.bounds n hn hs).2 hhi⟩,
    h.filled, h.spared⟩

theorem Kept.of_fewer (h : Kept lo hi ns) (hf : Fewer ms ns) : Kept lo hi ms where
  bounds assertion role s m hm hs := by
    obtain ⟨n, hn, hs⟩ := hf m hm hs
    exact h.bounds _ hn hs
  filled assertion s m hm hs := by
    obtain ⟨n, hn, hs⟩ := hf m hm hs
    exact h.filled _ hn hs
  spared assertion s t m hm m' hm' hs ht := by
    obtain ⟨n, hn, hs⟩ := hf m hm hs
    obtain ⟨n', hn', ht⟩ := hf m' hm' ht
    exact h.spared _ hn _ hn' hs ht

/-- Nodes that lie apart do not show what stands in each other's way. -/
theorem Kept.append (h : Kept lo mid ns) (h' : Kept mid hi ms) (hlo : lo ≤ mid) (hhi : mid ≤ hi) :
    Kept lo hi (ns ++ ms) where
  bounds assertion role s n hn hs := by
    rcases List.mem_append.mp hn with hn | hn
    · exact ⟨(h.bounds _ hn hs).1, Nat.le_trans (h.bounds _ hn hs).2 hhi⟩
    · exact ⟨Nat.le_trans hlo (h'.bounds _ hn hs).1, (h'.bounds _ hn hs).2⟩
  filled assertion s n hn hs := by
    rcases List.mem_append.mp hn with hn | hn
    · exact h.filled _ hn hs
    · exact h'.filled _ hn hs
  spared assertion s t n hn m hm hs ht := by
    rcases List.mem_append.mp hn with hn | hn <;> rcases List.mem_append.mp hm with hm | hm
    · exact h.spared _ hn _ hm hs ht
    · rintro ⟨hstart, -⟩
      have hfilled := h.filled _ hn hs
      have hleft := h.bounds _ hn hs
      have hright := h'.bounds _ hm ht
      omega
    · rintro ⟨-, hstop⟩
      have hfilled := h'.filled _ hn hs
      have hright := h'.bounds _ hn hs
      have hleft := h.bounds _ hm ht
      omega
    · exact h'.spared _ hn _ hm hs ht

/-- A node keeps to the offsets if its children do, and no call below it takes in all of it where it
can be mutated. -/
theorem Kept.node (h : Kept lo hi n.children) (hlo : lo ≤ n.span.start) (hhi : n.span.stop ≤ hi)
    (hn : n.isMutable = true → n.span.start < n.span.stop ∧
      ∀ assertion, ∀ c ∈ n.children, ∀ t, c.Shows assertion .skipped t → ¬ t.Holds n.span) :
    Kept lo hi [n] where
  bounds assertion role s m hm hs := by
    cases List.mem_singleton.mp hm
    cases hs with
    | mutated _ => exact ⟨hlo, hhi⟩
    | skipped _ => exact ⟨hlo, hhi⟩
    | inChild _ hc hs => exact h.bounds _ hc hs
  filled assertion s m hm hs := by
    cases List.mem_singleton.mp hm
    cases hs with
    | mutated hmut => exact (hn hmut).1
    | inChild _ hc hs => exact h.filled _ hc hs
  spared assertion s t m hm m' hm' hs ht := by
    cases List.mem_singleton.mp hm
    cases List.mem_singleton.mp hm'
    cases hs with
    | mutated hmut =>
      cases ht with
      | skipped hcall =>
        rw [isCallOf_of_isMutable hmut] at hcall
        cases hcall
      | inChild _ hc ht => exact (hn hmut).2 _ _ hc _ ht
    | inChild hplain hc hs =>
      cases ht with
      | skipped hcall =>
        rw [hplain rfl] at hcall
        cases hcall
      | inChild _ hc' ht => exact h.spared _ hc _ hc' hs ht

end Node

end Adequacy
