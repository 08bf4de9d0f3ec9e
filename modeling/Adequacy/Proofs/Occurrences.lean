import Adequacy.Mutation
import Mathlib

namespace Adequacy

/-- A visited node with where it stands, and the child positions that lead to it. -/
structure Occurrence where
  path : List Nat
  standing : Standing
  node : Node

namespace Occurrence

/-- An occurrence in the child at a position. -/
def inChild (i : Nat) (o : Occurrence) : Occurrence := { o with path := i :: o.path }

/-- The occurrences in the children of a node, from those in each of them. -/
def numbered (os : List (List Occurrence)) : List Occurrence :=
  os.zipIdx.flatMap fun (o, i) => o.map (inChild i)

variable {os : List (List Occurrence)} {o : Occurrence}

theorem mem_numbered_iff :
    o ∈ numbered os ↔ ∃ i row, os[i]? = some row ∧ ∃ o' ∈ row, o = inChild i o' := by
  simp only [numbered, List.mem_flatMap, List.mem_map, Prod.exists, List.mem_zipIdx_iff_getElem?]
  constructor
  · rintro ⟨row, i, hi, o', ho, rfl⟩
    exact ⟨i, row, hi, o', ho, rfl⟩
  · rintro ⟨i, row, hi, o', ho, rfl⟩
    exact ⟨row, i, hi, o', ho, rfl⟩

theorem map_numbered {α : Type} {f : Occurrence → α} (hf : ∀ i o, f (inChild i o) = f o) :
    (numbered os).map f = os.flatten.map f := by
  have hrow (x : List Occurrence × Nat) : (x.1.map (inChild x.2)).map f = x.1.map f := by
    rw [List.map_map]
    exact List.map_congr_left fun o _ => hf x.2 o
  calc (numbered os).map f = os.zipIdx.flatMap fun x => x.1.map f := by
        rw [numbered, List.map_flatMap]
        exact List.flatMap_congr fun x _ => hrow x
    _ = (os.zipIdx.map Prod.fst).flatMap (List.map f) := (List.flatMap_map ..).symm
    _ = os.flatten.map f := by rw [List.zipIdx_map_fst, List.map_flatten, List.flatMap_def]

/-- Occurrences stand in pre-order if their paths increase, where a path is less than those that it
begins, and less than those that turn off to a later child. -/
def InOrder (os : List Occurrence) : Prop := os.Pairwise fun a b => a.path < b.path

theorem inOrder_numbered (h : ∀ row ∈ os, InOrder row) : InOrder (numbered os) := by
  rw [InOrder, numbered, List.pairwise_flatMap]
  constructor
  · rintro ⟨row, i⟩ hrow
    rw [List.pairwise_map]
    refine (h row (List.fst_mem_of_mem_zipIdx hrow)).imp fun hab => ?_
    exact List.cons_lt_cons_iff.mpr (.inr ⟨rfl, hab⟩)
  · have hincreasing : os.zipIdx.Pairwise fun a b => a.2 < b.2 := by
      rw [← List.pairwise_map (f := Prod.snd), List.zipIdx_map_snd]
      exact List.pairwise_lt_range'
    refine hincreasing.imp fun {a b} hab => ?_
    simp only [List.mem_map, forall_exists_index, and_imp, forall_apply_eq_imp_iff₂]
    exact fun x _ y _ => List.cons_lt_cons_iff.mpr (.inl hab)

end Occurrence

open Occurrence

namespace Node

variable {n m : Node} {assertion : String} {s : Standing} {o : Occurrence} {path : List Nat}

/-- The node that child positions lead to. -/
def at? : Node → List Nat → Option Node
  | n, [] => some n
  | n, i :: path => n.children[i]?.bind (·.at? path)

theorem at?_append {later : List Nat} :
    n.at? (path ++ later) = (n.at? path).bind (·.at? later) := by
  induction path generalizing n with
  | nil => rfl
  | cons i path ih =>
    rw [List.cons_append, at?, at?, Option.bind_assoc]
    exact congrArg _ (funext fun c => ih)

/-- The visits of a node with the paths to them. -/
def visited (assertion : String) (s : Standing) (n : Node) : List Occurrence :=
  if n.isCallOf assertion then []
  else
    ⟨[], s, n⟩ ::
      numbered ((n.placed s).attach.map fun ⟨p, _⟩ => p.2.visited assertion p.1)
termination_by sizeOf n
decreasing_by exact sizeOf_lt_of_mem_children (mem_children_of_mem_placed (by assumption))

theorem visited_eq (h : n.isCallOf assertion = false) :
    n.visited assertion s =
      ⟨[], s, n⟩ :: numbered ((n.placed s).map fun p => p.2.visited assertion p.1) := by
  have hall : ((n.placed s).attach.map fun p => p.1.2.visited assertion p.1.1) =
      (n.placed s).map fun p => p.2.visited assertion p.1 :=
    List.attach_map_val (f := fun p : Standing × Node => p.2.visited assertion p.1)
  rw [visited, h, ← hall]
  rfl

theorem visited_of_isCallOf (h : n.isCallOf assertion = true) : n.visited assertion s = [] := by
  rw [visited, h]
  rfl

theorem map_placed (s : Standing) (n : Node) : (n.placed s).map (·.2) = n.children := by
  cases n <;> simp [placed, children, Function.comp_def]

theorem visits_eq (h : n.isCallOf assertion = false) :
    n.visits assertion s = (s, n) :: (n.placed s).flatMap fun p => p.2.visits assertion p.1 := by
  have hall : ((n.placed s).attach.map fun p => p.1.2.visits assertion p.1.1) =
      (n.placed s).map fun p => p.2.visits assertion p.1 :=
    List.attach_map_val (f := fun p : Standing × Node => p.2.visits assertion p.1)
  rw [visits, h, List.flatMap_def, List.flatMap_def, ← hall]
  rfl

/-- The visits are those that have paths. -/
theorem visits_eq_map_visited : n.visits assertion s =
    (n.visited assertion s).map fun o => (o.standing, o.node) := by
  induction n using induct generalizing s with
  | step n ih =>
    cases h : n.isCallOf assertion with
    | true => simp [visits, visited, h]
    | false =>
      rw [visited_eq h, visits_eq h, List.map_cons, map_numbered fun _ _ => rfl, List.map_flatten,
        List.map_map, ← List.flatMap_def]
      exact congrArg _ (List.flatMap_congr fun p hp => ih p.2 (mem_children_of_mem_placed hp))

theorem inOrder_visited : InOrder (n.visited assertion s) := by
  induction n using induct generalizing s with
  | step n ih =>
    cases h : n.isCallOf assertion with
    | true =>
      rw [visited_of_isCallOf h]
      exact .nil
    | false =>
      rw [visited_eq h]
      refine List.pairwise_cons.mpr ⟨fun o ho => ?_, inOrder_numbered ?_⟩
      · obtain ⟨i, row, -, o', -, rfl⟩ := mem_numbered_iff.mp ho
        exact List.nil_lt_cons ..
      · intro row hrow
        obtain ⟨p, hp, rfl⟩ := List.mem_map.mp hrow
        exact ih p.2 (mem_children_of_mem_placed hp)

/-- A path leads to a node, and to no skipped call on the way or there. -/
def Leads (assertion : String) (n : Node) (path : List Nat) (m : Node) : Prop :=
  n.at? path = some m ∧ ∀ front c, front <+: path → n.at? front = some c →
    c.isCallOf assertion = false

theorem leads_nil : n.Leads assertion [] m ↔ m = n ∧ n.isCallOf assertion = false := by
  simp only [Leads, at?, Option.some.injEq, List.prefix_nil]
  constructor
  · rintro ⟨rfl, h⟩
    exact ⟨rfl, h [] n rfl rfl⟩
  · rintro ⟨rfl, h⟩
    refine ⟨rfl, ?_⟩
    rintro _ c rfl hc
    cases hc
    exact h

theorem leads_cons {i : Nat} : n.Leads assertion (i :: path) m ↔
    n.isCallOf assertion = false ∧ ∃ c, n.children[i]? = some c ∧ c.Leads assertion path m := by
  simp only [Leads, at?, Option.bind_eq_some_iff]
  constructor
  · rintro ⟨⟨c, hc, hm⟩, h⟩
    refine ⟨h [] n (List.nil_prefix) rfl, c, hc, hm, fun front d hpath hd => ?_⟩
    exact h (i :: front) d (List.prefix_cons_inj i |>.mpr hpath) (by simp [at?, hc, hd])
  · rintro ⟨hn, c, hc, hm, h⟩
    refine ⟨⟨c, hc, hm⟩, fun front d hpath hd => ?_⟩
    rcases List.prefix_cons_iff.mp hpath with rfl | ⟨back, rfl, hback⟩
    · cases hd
      exact hn
    · rw [at?, hc] at hd
      exact h back d hback hd

theorem Leads.append {later : List Nat} {d : Node} (h : n.Leads assertion path m)
    (hd : m.Leads assertion later d) : n.Leads assertion (path ++ later) d := by
  induction path generalizing n with
  | nil =>
    obtain ⟨rfl, -⟩ := leads_nil.mp h
    exact hd
  | cons i path ih =>
    obtain ⟨hn, c, hc, hm⟩ := leads_cons.mp h
    exact leads_cons.mpr ⟨hn, c, hc, ih hm⟩

/-- The paths of the visits are those that lead to a node and meet no skipped call. -/
theorem exists_visited_iff : (∃ o ∈ n.visited assertion s, o.path = path ∧ o.node = m) ↔
    n.Leads assertion path m := by
  induction path generalizing n s with
  | nil =>
    rw [leads_nil]
    cases h : n.isCallOf assertion with
    | true => simp [visited_of_isCallOf h]
    | false =>
      rw [visited_eq h, List.exists_mem_cons_iff]
      simp only [true_and, and_true]
      constructor
      · rintro (rfl | ⟨o, ho, hpath, -⟩)
        · rfl
        · obtain ⟨i, row, -, o', -, rfl⟩ := mem_numbered_iff.mp ho
          cases hpath
      · rintro rfl
        exact .inl rfl
  | cons i path ih =>
    rw [leads_cons]
    cases h : n.isCallOf assertion with
    | true => simp [visited_of_isCallOf h]
    | false =>
      rw [visited_eq h, List.exists_mem_cons_iff, ← map_placed s]
      simp only [true_and, List.getElem?_map, Option.map_eq_some_iff]
      constructor
      · rintro (⟨hpath, -⟩ | ⟨o, ho, hpath, hnode⟩)
        · cases hpath
        · obtain ⟨j, row, hrow, o', ho', rfl⟩ := mem_numbered_iff.mp ho
          obtain ⟨rfl, rfl⟩ := List.cons.inj hpath
          rw [List.getElem?_map, Option.map_eq_some_iff] at hrow
          obtain ⟨p, hp, rfl⟩ := hrow
          exact ⟨p.2, ⟨p, hp, rfl⟩, ih.mp ⟨o', ho', rfl, hnode⟩⟩
      · rintro ⟨c, ⟨p, hp, rfl⟩, hc⟩
        obtain ⟨o, ho, rfl, hnode⟩ := (@ih p.2 p.1).mpr hc
        refine .inr ⟨inChild i o, mem_numbered_iff.mpr ⟨i, _, ?_, o, ho, rfl⟩, rfl, hnode⟩
        rw [List.getElem?_map, hp]
        rfl

end Node

namespace Program

variable {p : Program} {assertion : String} {path : List Nat} {m : Node}

/-- The node that the position of an item and child positions below it lead to. -/
def at? (p : Program) : List Nat → Option Node
  | [] => none
  | i :: path => p.items[i]?.bind (·.at? path)

theorem at?_cons {i : Nat} : p.at? (i :: path) = p.items[i]?.bind (·.at? path) := rfl

theorem at?_append {later : List Nat} (h : p.at? path = some m) :
    p.at? (path ++ later) = m.at? later := by
  cases path with
  | nil => cases h
  | cons i path =>
    obtain ⟨n, hn, h⟩ := Option.bind_eq_some_iff.mp h
    rw [List.cons_append, at?_cons, hn, Option.bind_some, Node.at?_append, h]
    rfl

/-- The visits of a program with the paths to them. -/
def visited (assertion : String) (p : Program) : List Occurrence :=
  numbered (p.items.map (Node.visited assertion {}))

theorem visits_eq_map_visited (assertion : String) (p : Program) :
    p.visits assertion = (p.visited assertion).map fun o => (o.standing, o.node) := by
  rw [visited, map_numbered fun _ _ => rfl, List.map_flatten, List.map_map, ← List.flatMap_def]
  exact List.flatMap_congr fun n _ => Node.visits_eq_map_visited

theorem inOrder_visited : InOrder (p.visited assertion) := by
  refine inOrder_numbered fun row hrow => ?_
  obtain ⟨n, -, rfl⟩ := List.mem_map.mp hrow
  exact Node.inOrder_visited

/-- A path leads to a node, and to no skipped call on the way or there. -/
def Leads (assertion : String) (p : Program) (path : List Nat) (m : Node) : Prop :=
  p.at? path = some m ∧ ∀ front c, front <+: path → p.at? front = some c →
    c.isCallOf assertion = false

theorem leads_cons {i : Nat} : p.Leads assertion (i :: path) m ↔
    ∃ n, p.items[i]? = some n ∧ n.Leads assertion path m := by
  simp only [Leads, Node.Leads, at?_cons, Option.bind_eq_some_iff]
  constructor
  · rintro ⟨⟨c, hc, hm⟩, h⟩
    refine ⟨c, hc, hm, fun front d hpath hd => ?_⟩
    exact h (i :: front) d (List.prefix_cons_inj i |>.mpr hpath) (by rw [at?_cons, hc]; exact hd)
  · rintro ⟨c, hc, hm, h⟩
    refine ⟨⟨c, hc, hm⟩, fun front d hpath hd => ?_⟩
    rcases List.prefix_cons_iff.mp hpath with rfl | ⟨back, rfl, hback⟩
    · cases hd
    · rw [at?_cons, hc] at hd
      exact h back d hback hd

theorem Leads.append {later : List Nat} {d : Node} (h : p.Leads assertion path m)
    (hd : m.Leads assertion later d) : p.Leads assertion (path ++ later) d := by
  cases path with
  | nil => cases h.1
  | cons i path =>
    obtain ⟨n, hn, hm⟩ := leads_cons.mp h
    exact leads_cons.mpr ⟨n, hn, hm.append hd⟩

/-- The paths of the visits are those that lead to a node and meet no skipped call. -/
theorem exists_visited_iff : (∃ o ∈ p.visited assertion, o.path = path ∧ o.node = m) ↔
    p.Leads assertion path m := by
  cases path with
  | nil =>
    simp only [Leads, at?, reduceCtorEq, false_and, iff_false, not_exists, not_and]
    intro o ho hpath
    obtain ⟨i, row, -, o', -, rfl⟩ := mem_numbered_iff.mp ho
    cases hpath
  | cons i path =>
    rw [leads_cons]
    constructor
    · rintro ⟨o, ho, hpath, hnode⟩
      obtain ⟨j, row, hrow, o', ho', rfl⟩ := mem_numbered_iff.mp ho
      obtain ⟨rfl, rfl⟩ := List.cons.inj hpath
      rw [List.getElem?_map, Option.map_eq_some_iff] at hrow
      obtain ⟨n, hn, rfl⟩ := hrow
      exact ⟨n, hn, Node.exists_visited_iff.mp ⟨o', ho', rfl, hnode⟩⟩
    · rintro ⟨n, hn, hm⟩
      obtain ⟨o, ho, rfl, hnode⟩ := (Node.exists_visited_iff (s := {})).mpr hm
      refine ⟨inChild i o, mem_numbered_iff.mpr ⟨i, _, ?_, o, ho, rfl⟩, rfl, hnode⟩
      rw [List.getElem?_map, hn]
      rfl

/-- Its path tells an occurrence from all others. -/
theorem eq_of_path_eq {a b : Occurrence} (ha : a ∈ p.visited assertion)
    (hb : b ∈ p.visited assertion) (h : a.path = b.path) : a = b := by
  have hnodup : ((p.visited assertion).map Occurrence.path).Nodup := by
    rw [List.Nodup, List.pairwise_map]
    exact inOrder_visited.imp fun hab => ne_of_lt hab
  exact List.inj_on_of_nodup_map hnodup ha hb h

end Program

end Adequacy
