import Adequacy.Proofs.LabeledLoops
import Adequacy.Proofs.PrintedNodes

namespace Adequacy

namespace Node

variable {source : String} {a c e n : Node} {m : Mark}

/-- The texts of the children that are reached do not overlap, nor do they overlap with those that
are left out. -/
theorem pairwise_apart (h : n.Nested source) :
    (n.reachedChildren ++ n.skippedChildren).Pairwise (·.region.Apart ·.region) := by
  refine n.children_perm.pairwise (h.parted.imp fun hparted => ?_) fun hapart => Or.symm hapart
  exact hparted.imp_right Nat.le_of_lt

/-- The marks of a child that is reached are made in a row, and the other ones of its node spare
it. -/
theorem marks_around_child (h : a.Everywhere (Nested source)) (hc : c ∈ a.reachedChildren) :
    ∃ before after, a.marks source = before ++ (c.marks source ++ after) ∧
      ∀ m ∈ before ++ after, (ProbeStep.mark m).Spares c := by
  have hvisit : ProbeStep.visit c ∈ ProbeStep.ofNode source a := visit_mem_ofNode hc
  obtain ⟨front, back, hsteps⟩ := List.append_of_mem hvisit
  have hothers : ∀ step ∈ front ++ back, ∀ m ∈ step.marks source, (ProbeStep.mark m).Spares c := by
    intro step hstep m hm
    have hall : step ∈ ProbeStep.ofNode source a := by
      rw [hsteps]
      exact List.perm_middle.symm.subset (.tail _ hstep)
    cases step with
    | mark mark =>
      obtain rfl := List.mem_singleton.mp hm
      exact ProbeStep.spares_ofNode h.here (fun e he => (h.child he).here)
        (mem_children_of_mem_reachedChildren hc) _ hall
    | visit e =>
      refine spares_of_apart (h.child (ProbeStep.mem_children_of_visit hall)) ?_ hm
      have hapart := (List.pairwise_append.mp (pairwise_apart h.here)).1
      rw [← ProbeStep.visited?_ofNode source a, hsteps, List.filterMap_append] at hapart
      have hmiddle := (List.pairwise_middle fun hxy => Or.symm hxy).mp hapart
      rw [← List.filterMap_append] at hmiddle
      exact Or.symm ((List.pairwise_cons.mp hmiddle).1 e (List.mem_filterMap.mpr ⟨_, hstep, rfl⟩))
  refine ⟨front.flatMap (ProbeStep.marks source), back.flatMap (ProbeStep.marks source), ?_, ?_⟩
  · rw [marks_eq, hsteps, List.flatMap_append, List.flatMap_cons]
    rfl
  · rw [← List.flatMap_append, List.forall_mem_flatMap]
    exact hothers

/-- The marks of a node that is reached are made in a row, and the other ones spare it. -/
theorem marks_around (h : a.Everywhere (Nested source)) (hn : n ∈ a.reached) :
    ∃ before after, a.marks source = before ++ (n.marks source ++ after) ∧
      ∀ m ∈ before ++ after, (ProbeStep.mark m).Spares n := by
  induction a using induct with
  | step a ih =>
    rw [reached_eq, List.mem_cons, List.mem_flatMap] at hn
    rcases hn with rfl | ⟨c, hc, hn⟩
    · exact ⟨[], [], by simp, by simp⟩
    · have hchild := mem_children_of_mem_reachedChildren hc
      have hbelow : n ∈ c.nodes := c.nodes_perm.mem_iff.mpr (List.mem_append_left _ hn)
      obtain ⟨before, after, hmarks, hspares⟩ := marks_around_child h hc
      obtain ⟨before', after', hmarks', hspares'⟩ := ih c hchild (h.child hchild) hn
      refine ⟨before ++ before', after' ++ after, ?_, fun m hm => ?_⟩
      · rw [hmarks, hmarks']
        simp
      · have hcases : m ∈ before ++ after ∨ m ∈ before' ++ after' := by
          simp only [List.mem_append] at hm ⊢
          tauto
        exact hcases.elim
          (fun hm => spares_of_mem_nodes (h.child hchild) hbelow (hspares m hm)) (hspares' m)

theorem spares_of_skipped (h : a.Everywhere (Nested source)) (hc : c ∈ a.skippedChildren)
    (hm : m ∈ a.marks source) : (ProbeStep.mark m).Spares c := by
  have hchild : c ∈ a.children := a.children_perm.mem_iff.mpr (List.mem_append_right _ hc)
  rw [marks_eq] at hm
  obtain ⟨step, hstep, hm⟩ := List.mem_flatMap.mp hm
  cases step with
  | mark mark =>
    obtain rfl := List.mem_singleton.mp hm
    exact ProbeStep.spares_ofNode h.here (fun e he => (h.child he).here) hchild _ hstep
  | visit e =>
    have he : e ∈ a.reachedChildren := by
      rw [← ProbeStep.visited?_ofNode source a]
      exact List.mem_filterMap.mpr ⟨_, hstep, rfl⟩
    exact spares_of_apart (h.child (ProbeStep.mem_children_of_visit hstep))
      ((List.pairwise_append.mp (pairwise_apart h.here)).2.2 e he c hc) hm

/-- A node that is not reached is spared by all marks. -/
theorem spares_of_not_reached (h : a.Everywhere (Nested source)) (hn : n ∈ a.nodes)
    (hr : n ∉ a.reached) (hm : m ∈ a.marks source) : (ProbeStep.mark m).Spares n := by
  induction a using induct with
  | step a ih =>
    rw [reached_eq, List.mem_cons, List.mem_flatMap, not_or] at hr
    obtain ⟨c, hc, hn⟩ := (mem_nodes_iff.mp hn).resolve_left hr.1
    rcases List.mem_append.mp (a.children_perm.mem_iff.mp hc) with hreached | hskipped
    · rcases spared_of_child h hc hm with hspares | hm
      · exact spares_of_mem_nodes (h.child hc) hn hspares
      · exact ih c hc (h.child hc) hn (fun hr' => hr.2 ⟨c, hreached, hr'⟩) hm
    · exact spares_of_mem_nodes (h.child hc) hn (spares_of_skipped h hskipped hm)

end Node

namespace Program

variable {p : Program} {n : Node} {m : Mark}

theorem marks_root (p : Program) : p.root.marks p.source = p.marks := by
  rw [Node.marks_eq]
  exact List.flatMap_map ..

/-- The marks of a node that is reached are made in a row, and all other marks of the program spare
it. -/
theorem marks_around (h : p.Nested) (hn : n ∈ p.reached) :
    ∃ before after, p.marks = before ++ (n.marks p.source ++ after) ∧
      ∀ m ∈ before ++ after, (ProbeStep.mark m).Spares n := by
  rw [← marks_root]
  exact Node.marks_around (nested_root h) (mem_reached_root hn)

/-- A node that is not reached is spared by all marks of the program. -/
theorem spares_of_not_reached (h : p.Nested) (hn : n ∈ p.nodes) (hr : n ∉ p.reached)
    (hm : m ∈ p.marks) : (ProbeStep.mark m).Spares n := by
  obtain ⟨a, ha, hn⟩ := List.mem_flatMap.mp hn
  obtain ⟨e, he, hm⟩ := List.mem_flatMap.mp hm
  rcases Node.spared_of_aside (h.items e he) (Node.aside_of_parted h.parted he ha) hm with
    hspares | hm
  · exact Node.spares_of_mem_nodes (h.items a ha) hn hspares
  · exact Node.spares_of_not_reached (h.items a ha) hn
      (fun hreached => hr (List.mem_flatMap.mpr ⟨a, ha, hreached⟩)) hm

end Program

end Adequacy
