import Adequacy.Proofs.Accumulation
import Adequacy.Report

namespace Adequacy

namespace CoverTarget

theorem ids_ofRanges (ranges : List SourceRange) :
    (ofRanges ranges).ids = List.range ranges.length := by
  rw [ofRanges, ids, List.map_map, List.range_eq_range']
  exact List.zipIdx_map_snd 0 ranges

theorem ids_filter (t : CoverTarget) (keep : Nat → Bool) :
    ids (t.filter fun item => keep item.1) = t.ids.filter keep := by
  rw [ids, ids, List.filter_map]
  rfl

end CoverTarget

theorem Program.ordered_target (p : Program) (k : Category) :
    (p.target k).ids.Pairwise (· < ·) := by
  rw [target, CoverTarget.ids_ofRanges]
  exact List.pairwise_lt_range

namespace CoverSet

/-- The target of a set in two parts, each in ascending order: the ids that are covered and the
items that are left. -/
structure Splits (s : CoverSet) (covered : List Nat) (left : CoverTarget) : Prop where
  covered_ordered : covered.Pairwise (· < ·)
  left_ordered : left.ids.Pairwise (· < ·)
  perm_target : (covered ++ left.ids).Perm s.target.ids
  mem_covered_iff (id : Nat) : id ∈ covered ↔ s.isCovered id = true
  uncovered_eq : s.uncovered = left
  hit_eq : s.hit = covered.length
  total_eq : s.total = covered.length + left.length

/-- The record of an item that is left. -/
def leftValue (source : String) (item : Nat × SourceRange) : Json :=
  .object [("id", .nat item.1), ("range", item.2.toJson),
    ("text", .string ((item.2.text? source).getD ""))]

/-- A record shows how many ids are covered, how many there are, and both parts of the target. -/
structure IsReported (source : String) (covered : List Nat) (left : CoverTarget) (report : Json) :
    Prop where
  hit : report.member? "hit" = some (.nat covered.length)
  total : report.member? "total" = some (.nat (covered.length + left.length))
  covered : report.member? "covered" = some (.array (covered.map .nat))
  uncovered : report.member? "uncovered" = some (.array (left.map (leftValue source)))

/-- The line of details on an item: a star if it is among the covered ones, its id, its range, and
its text if it has one. -/
def lineOf (source : String) (covered : List Nat) (item : Nat × SourceRange) : String :=
  "\n      " ++ (if item.1 ∈ covered then "*" else " ") ++ " " ++ toString item.1 ++ ": " ++
    item.2.display ++ (item.2.text? source).elim "" (" -- " ++ ·)

variable {s : CoverSet} {t : CoverTarget} {ids : List Nat}

theorem Covers.perm_coveredIds (h : s.Covers t ids) (ht : t.ids.Nodup) :
    s.covered.Perm s.coveredIds := by
  rw [coveredIds, h.target_eq]
  refine (List.perm_ext_iff_of_nodup h.nodup (ht.filter _)).mpr fun id => ?_
  rw [List.mem_filter, isCovered, List.contains_iff_mem, h.mem_iff]
  tauto

/-- What is covered lies in the target, so the ids of the target that are covered and those that
are not are all there are, and as many as are counted. -/
theorem Covers.splits (h : s.Covers t ids) (ht : t.ids.Pairwise (· < ·)) :
    s.Splits s.coveredIds s.uncovered := by
  have hnodup : t.ids.Nodup := ht.imp Nat.ne_of_lt
  have hcovered := h.perm_coveredIds hnodup
  have hleft : s.uncovered.ids = s.target.ids.filter (!s.isCovered ·) :=
    CoverTarget.ids_filter s.target (!s.isCovered ·)
  have hperm : (s.coveredIds ++ s.uncovered.ids).Perm s.target.ids := by
    rw [hleft]
    exact List.filter_append_perm s.isCovered s.target.ids
  have hsum := hperm.length_eq
  rw [← h.target_eq] at ht
  refine ⟨ht.filter _, hleft ▸ ht.filter _, hperm, fun id => ?_, rfl, hcovered.length_eq, ?_⟩
  · rw [← hcovered.mem_iff, isCovered, List.contains_iff_mem]
  · rw [List.length_append, CoverTarget.ids, CoverTarget.ids, List.length_map,
      List.length_map] at hsum
    exact hsum.symm

theorem Splits.hit_le_total {covered : List Nat} {left : CoverTarget} (h : s.Splits covered left) :
    s.hit ≤ s.total := by
  rw [h.hit_eq, h.total_eq]
  exact Nat.le_add_right _ _

theorem Splits.isReported {covered : List Nat} {left : CoverTarget} (h : s.Splits covered left)
    (hcovered : s.coveredIds = covered) (source : String) :
    IsReported source covered left (Report.coverSet source s) where
  hit := by
    rw [← h.hit_eq]
    rfl
  total := by
    rw [← h.total_eq]
    rfl
  covered := by
    rw [← hcovered]
    rfl
  uncovered := by
    rw [← h.uncovered_eq]
    rfl

theorem Splits.render_eq {covered : List Nat} {left : CoverTarget} (h : s.Splits covered left)
    (source : String) : s.render true (some source) =
      s.summary ++ String.join (s.target.map (lineOf source covered)) := by
  have hline : s.detail (some source) = lineOf source covered := by
    funext item
    have hmarker : (if s.isCovered item.1 then "*" else " ") =
        if item.1 ∈ covered then "*" else " " := if_congr (h.mem_covered_iff item.1).symm rfl rfl
    simp only [detail, lineOf, hmarker, Option.bind_some]
    cases item.2.text? source <;> rfl
  rw [render, if_pos rfl, hline]

end CoverSet

namespace Coverage

variable {σ : Type} {p : Program} {c : Coverage σ}

theorem member?_coverageValue (path : String) (c : Coverage σ) (showInstrumented : Bool)
    (k : Category) : (Report.coverageValue path c showInstrumented).member? k.name =
      some (Report.coverSet c.source (c.get k)) := by
  cases showInstrumented <;> cases k <;> rfl

theorem source_takeIn (c : Coverage σ) (e : ExecutionEvent) : (c.takeIn e).source = c.source := by
  cases e <;> rfl

theorem source_ofProgram? (h : ofProgram? p = some c) : c.source = p.source := by
  obtain ⟨i, -, rfl⟩ := Option.map_eq_some_iff.mp h
  rfl

variable [Executable σ]

theorem source_performAll (c : Coverage σ) (steps : List (CoverageStep σ)) :
    (c.performAll steps).source = c.source := by
  rw [performAll_eq]
  induction steps.flatMap CoverageStep.attempts generalizing c with
  | nil => rfl
  | cons a later ih =>
    rw [List.foldl_cons, ih, attempt_eq]
    exact source_takeIn c _

/-- After any steps all that is shown of a category comes from one split of its target. -/
theorem views_agree (h : ofProgram? p = some c) (steps : List (CoverageStep σ)) (k : Category)
    (path : String) (showInstrumented withDetail : Bool) :
    let reached := c.performAll steps
    let s := reached.get k
    let value := Report.coverageValue path reached showInstrumented
    s.covered ⊆ (p.target k).ids ∧ s.hit ≤ s.total ∧ s.target = p.target k ∧
      (p.target k).ids.Pairwise (· < ·) ∧
      Report.coverage .json path reached showInstrumented withDetail = value.pretty 0 ∧
      ∃ covered left report, s.Splits covered left ∧ value.member? k.name = some report ∧
        CoverSet.IsReported p.source covered left report ∧
        s.render true (some p.source) =
          s.summary ++ String.join ((p.target k).map (CoverSet.lineOf p.source covered)) := by
  intro reached s value
  have haccounts := (accounts_ofProgram? h).attempts (steps.flatMap CoverageStep.attempts)
  rw [← performAll_eq] at haccounts
  have hcovers := haccounts.covers k
  have hsource : reached.source = p.source :=
    (source_performAll c steps).trans (source_ofProgram? h)
  have hsplits := hcovers.splits (p.ordered_target k)
  refine ⟨fun id hid => ((hcovers.mem_iff id).mp hid).1, hsplits.hit_le_total, hcovers.target_eq,
    p.ordered_target k, rfl, _, _, _, hsplits, member?_coverageValue path reached _ k, ?_, ?_⟩
  · rw [hsource]
    exact hsplits.isReported rfl p.source
  · rw [← hcovers.target_eq]
    exact hsplits.render_eq p.source

/-- One branch is covered and one is left. -/
theorem views_agree_of_choosing : ∃ c : Coverage PreparedReplies, ofProgram? choosing = some c ∧
    ∃ covered left report, ((c.performAll choosingSteps).get .branch).Splits covered left ∧
      covered = [1] ∧ left.ids = [0] ∧
      (Report.coverageValue "f.js" (c.performAll choosingSteps) true).member? "branch" =
        some report ∧ CoverSet.IsReported choosing.source covered left report := by
  obtain ⟨r, hr⟩ : ∃ r, choosing.instrument? = some r := Option.isSome_iff_exists.mp (by cbv)
  have hc : (ofProgram? choosing : Option (Coverage PreparedReplies)) = some _ :=
    congrArg (Option.map _) hr
  have haccounts := (accounts_ofProgram? hc).attempts (choosingSteps.flatMap CoverageStep.attempts)
  rw [← performAll_eq] at haccounts
  have hreported := (haccounts.covers .branch).mem_iff
  obtain ⟨-, -, htarget, -, -, covered, left, report, hsplits, hmember, hreport, -⟩ :=
    views_agree hc choosingSteps .branch "f.js" true true
  have hcovered : covered = [1] := by
    have hmem (id : Nat) : id ∈ covered ↔ id ∈ [1] := by
      rw [hsplits.mem_covered_iff, CoverSet.isCovered, List.contains_iff_mem, hreported,
        ids_target_choosing, List.nil_append, ← answers, answers_choosingSteps rfl]
      simp [choosingEvents, ExecutionEvent.reports, ExecutionEvent.report?, Invocation.ids]
      omega
    exact List.perm_singleton.mp ((List.perm_ext_iff_of_nodup
      (hsplits.covered_ordered.imp Nat.ne_of_lt) (by decide)).mpr hmem)
  have hleft : left.ids = [0] := by
    have hperm := hsplits.perm_target
    rw [hcovered, htarget, ids_target_choosing] at hperm
    have hswap : [0, 1].Perm [1, 0] := .swap 1 0 []
    exact List.perm_singleton.mp ((hperm.trans hswap).cons_inv)
  exact ⟨_, hc, covered, left, report, hsplits, hcovered, hleft, hmember, hreport⟩

end Coverage

end Adequacy
