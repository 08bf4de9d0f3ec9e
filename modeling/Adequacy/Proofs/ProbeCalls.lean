import Adequacy.Proofs.ProbeSites
import Mathlib

namespace Adequacy

/-- How often a text has another one in it. -/
def occurrences (needle : List Char) : List Char → Nat
  | [] => 0
  | c :: cs => (if needle.isPrefixOf (c :: cs) then 1 else 0) + occurrences needle cs

namespace Category

variable {c c' : Category} {k k' : Nat} {rest : List Char}

/-- What stands between the name of the sink and the closing parenthesis of a call. -/
def label (c : Category) (k : Nat) : List Char :=
  c.name.toList ++ ".add(".toList ++ Nat.toDigits 10 k

theorem toList_probe (c : Category) (k : Nat) :
    (c.probe k).toList = "__cov__.".toList ++ c.label k ++ [')'] := by
  change ("__cov__." ++ c.name ++ ".add(" ++ toString k ++ ")").toList = _
  simp [label]

theorem label_inj (h : c.label k = c'.label k') : c = c' ∧ k = k' := by
  have hc : c = c' := by cases c <;> cases c' <;> simp [label, name] at h ⊢
  subst hc
  have hk := congrArg (fun ds => Nat.ofDigitChars 10 ds 0) (List.append_cancel_left h)
  exact ⟨rfl, by simpa using hk⟩

theorem not_mem_label {d : Char} (hd : d.isDigit = false)
    (hfixed : ∀ c : Category, d ∉ c.name.toList ++ ".add(".toList) : d ∉ c.label k := by
  rw [label, List.mem_append, not_or]
  refine ⟨hfixed c, fun h => ?_⟩
  rw [Nat.isDigit_of_mem_toDigits (by decide) (by decide) h] at hd
  cases hd

/-- No call begins another one. -/
theorem probe_isPrefixOf :
    (c.probe k).toList.isPrefixOf ((c'.probe k').toList ++ rest) = decide (c = c' ∧ k = k') := by
  rw [Bool.eq_iff_iff, List.isPrefixOf_iff_prefix, decide_eq_true_iff]
  constructor
  · rintro ⟨t, h⟩
    simp only [toList_probe, List.append_assoc] at h
    have hlabels := congrArg (List.takeWhile (· ≠ ')')) (List.append_cancel_left h)
    have hparen (c k) : ∀ d ∈ label c k, decide (d ≠ ')') = true := by
      intro d hd
      rw [decide_eq_true_iff]
      rintro rfl
      exact not_mem_label (by decide) (fun c => by cases c <;> decide) hd
    rw [List.takeWhile_append_of_pos (hparen c k), List.takeWhile_append_of_pos (hparen c' k')]
      at hlabels
    exact label_inj (by simpa using hlabels)
  · rintro ⟨rfl, rfl⟩
    exact List.prefix_append ..

/-- A text without underscores has no part of a call in it. -/
theorem occurrences_append_of_not_mem {t : List Char} (h : '_' ∉ t) :
    occurrences (c.probe k).toList (t ++ rest) = occurrences (c.probe k).toList rest := by
  induction t with
  | nil => rfl
  | cons d t ih =>
    rw [List.mem_cons, not_or] at h
    rw [List.cons_append, occurrences, ih h.2, toList_probe]
    simp [h.1]

/-- A call has itself in it once and no other call. -/
theorem occurrences_probe_append :
    occurrences (c.probe k).toList ((c'.probe k').toList ++ rest) =
      (if c = c' ∧ k = k' then 1 else 0) + occurrences (c.probe k).toList rest := by
  have hlabel : '_' ∉ c'.label k' ++ [')'] := by
    rw [List.mem_append, not_or]
    exact ⟨not_mem_label (by decide) fun c => by cases c <;> decide, by decide⟩
  have hhead : (c'.probe k').toList ++ rest =
      '_' :: ("_cov__.".toList ++ (c'.label k' ++ [')'] ++ rest)) := by
    rw [toList_probe]
    simp
  -- the second underscore of a call begins none, as the name of the sink goes on differently
  have htail :
      occurrences (c.probe k).toList ("_cov__.".toList ++ (c'.label k' ++ [')'] ++ rest)) =
      occurrences (c.probe k).toList rest := by
    refine Eq.trans ?_ (occurrences_append_of_not_mem hlabel)
    simp [occurrences, toList_probe]
  rw [hhead, occurrences, htail, ← hhead, probe_isPrefixOf]
  simp

end Category

namespace ProbeCounts

theorem get_bump (counts : ProbeCounts) (c k : Category) :
    (counts.bump k).get c = counts.get c + if k = c then 1 else 0 := by
  cases c <;> cases k <;> rfl

end ProbeCounts

namespace Piece

variable {c : Category} {k : Nat}

/-- Whether a fixed text has no underscore, which all calls begin with. -/
def isPlain : Piece → Bool
  | text t => !t.toList.contains '_'
  | probe .. => true

theorem get_render (counts : ProbeCounts) (pieces : List Piece) (c : Category) :
    (render counts pieces).2.get c = counts.get c + (pieces.filterMap (item? c)).length := by
  induction pieces generalizing counts with
  | nil => rfl
  | cons piece pieces ih =>
    cases piece with
    | text t => exact ih counts
    | probe k item =>
      rw [render, ih, ProbeCounts.get_bump, List.filterMap_cons, item?]
      split <;> simp_all
      omega

/-- A call is in the text of pieces once if a probe among them has its number. -/
theorem occurrences_render {pieces : List Piece} (h : pieces.all isPlain = true)
    (counts : ProbeCounts) (c : Category) (k : Nat) :
    occurrences (c.probe k).toList (render counts pieces).1.toList =
      if counts.get c ≤ k ∧ k < counts.get c + (pieces.filterMap (item? c)).length then 1
      else 0 := by
  induction pieces generalizing counts with
  | nil => simp [render, occurrences]
  | cons piece pieces ih =>
    rw [List.all_cons, Bool.and_eq_true] at h
    cases piece with
    | text t =>
      have ht : '_' ∉ t.toList := by simpa [isPlain] using h.1
      rw [render, String.toList_append, Category.occurrences_append_of_not_mem ht, ih h.2]
      rfl
    | probe c' item =>
      rw [render, String.toList_append, Category.occurrences_probe_append, ih h.2,
        ProbeCounts.get_bump, List.filterMap_cons, item?]
      by_cases hc : c' = c
      · subst hc
        simp only [if_true, true_and, List.length_cons]
        split <;> split <;> split <;> omega
      · simp [hc, Ne.symm hc]

end Piece

namespace Mark

variable {c : Category} {k : Nat} {marks : List Mark}

def isPlain (m : Mark) : Bool := m.pieces.all Piece.isPlain

/-- The probes of a category that marks make. -/
def probesOf (c : Category) (marks : List Mark) : List MarkedProbe :=
  marks.flatMap fun m => m.probes.filter (·.1 = c)

theorem probesOf_cons (c : Category) (m : Mark) (marks : List Mark) :
    probesOf c (m :: marks) = m.probes.filter (·.1 = c) ++ probesOf c marks := List.flatMap_cons ..

theorem offset_of_mem_probes {m : Mark} {p : MarkedProbe} (h : p ∈ m.probes) :
    p.2.2 = m.offset := by
  obtain ⟨piece, -, hp⟩ := List.mem_filterMap.mp h
  cases piece <;> cases hp
  rfl

theorem items_of_pieces (offset : Nat) (c : Category) (pieces : List Piece) :
    pieces.filterMap (Piece.item? c) =
      ((pieces.filterMap (Piece.marked? offset)).filter (·.1 = c)).map (·.2.1) := by
  induction pieces with
  | nil => rfl
  | cons piece pieces ih =>
    cases piece with
    | text t => exact ih
    | probe k item =>
      rw [List.filterMap_cons, List.filterMap_cons, Piece.item?, Piece.marked?, ih]
      by_cases hk : k = c <;> simp [hk]

theorem items_eq (c : Category) (marks : List Mark) :
    items c marks = (probesOf c marks).map (·.2.1) := by
  rw [items, probesOf, List.map_flatMap]
  exact List.flatMap_congr fun m _ => items_of_pieces m.offset c m.pieces

theorem length_items_of_pieces (c : Category) (m : Mark) :
    (m.pieces.filterMap (Piece.item? c)).length = (m.probes.filter (·.1 = c)).length := by
  rw [items_of_pieces m.offset, List.length_map]
  rfl

/-- A call is in the texts of the insertions once if a probe of the marks has its number. -/
theorem sum_occurrences (h : ∀ m ∈ marks, m.isPlain = true) (counts : ProbeCounts) (c : Category)
    (k : Nat) : ((insertions counts marks).map fun i =>
        occurrences (c.probe k).toList i.text.toList).sum =
      if counts.get c ≤ k ∧ k < counts.get c + (probesOf c marks).length then 1 else 0 := by
  induction marks generalizing counts with
  | nil => simp [insertions, probesOf]
  | cons m marks ih =>
    obtain ⟨hm, hmarks⟩ := List.forall_mem_cons.mp h
    rw [insertions, List.map_cons, List.sum_cons, Piece.occurrences_render hm, ih hmarks,
      Piece.get_render, length_items_of_pieces, probesOf_cons, List.length_append]
    split <;> split <;> split <;> omega

/-- The call with the number of a probe is in the insertion at the place of the probe. -/
theorem exists_call (h : ∀ m ∈ marks, m.isPlain = true) (counts : ProbeCounts) {k : Nat}
    {p : MarkedProbe} (hp : (probesOf c marks)[k]? = some p) :
    ∃ i ∈ insertions counts marks, i.offset = p.2.2 ∧
      occurrences (c.probe (counts.get c + k)).toList i.text.toList = 1 := by
  induction marks generalizing counts k with
  | nil => simp [probesOf] at hp
  | cons m marks ih =>
    obtain ⟨hm, hmarks⟩ := List.forall_mem_cons.mp h
    rw [probesOf_cons] at hp
    rw [insertions]
    by_cases hk : k < (m.probes.filter (·.1 = c)).length
    · rw [List.getElem?_append_left hk] at hp
      have hmem := List.mem_of_mem_filter (List.mem_of_getElem? hp)
      refine ⟨_, .head _, (offset_of_mem_probes hmem).symm, ?_⟩
      rw [Piece.occurrences_render hm, length_items_of_pieces, if_pos (by omega)]
    · rw [List.getElem?_append_right (by omega)] at hp
      obtain ⟨i, hi, ho, hcall⟩ := ih hmarks (Piece.render counts m.pieces).2 hp
      rw [Piece.get_render, length_items_of_pieces] at hcall
      refine ⟨i, .tail _ hi, ho, ?_⟩
      rw [← hcall]
      congr 3
      omega

end Mark

namespace ProbeStep

def isPlain : ProbeStep → Bool
  | mark m => m.isPlain
  | visit _ => true

theorem isPlain_visits (ns : List Node) : (visits ns).all isPlain = true := by
  simp [visits, isPlain]

theorem isPlain_statements (ns : List Node) : (statements ns).all isPlain = true := by
  rw [statements, List.all_flatMap, List.all_eq_true]
  intro s _
  split <;> rfl

theorem isPlain_operand (n : Node) : (operand n).all isPlain = true := by
  unfold operand
  split <;> rfl

theorem isPlain_openedBlock (c : Category) (item : Span) (b : Node) :
    (openedBlock c item b).all isPlain = true := rfl

theorem isPlain_body (item : Option (Category × Span)) (n : Node) :
    (body item n).all isPlain = true := by
  by_cases hb : n.isBlock = true
  · obtain ⟨_, _, rfl⟩ := Node.eq_block_of_isBlock hb
    cases item <;> rfl
  · rw [Bool.not_eq_true] at hb
    rw [body_of_isBlock_eq_false item hb, List.all_append, List.all_append, isPlain_statements]
    cases item <;> rfl

/-- All fixed texts that are inserted are plain. -/
theorem isPlain_ofNode (source : String) (n : Node) : (ofNode source n).all isPlain = true := by
  cases n with
  | func span params body =>
    rw [ofNode, List.all_append, isPlain_visits, isPlain_openedBlock]
    rfl
  | arrow span params body =>
    unfold ofNode
    dsimp only
    rw [List.all_append, isPlain_visits, Bool.true_and]
    split <;> rfl
  | declarator span target init => cases init <;> rfl
  | block span body => exact isPlain_statements body
  | staticBlock span body => exact isPlain_statements body
  | switchCase span test body => exact isPlain_statements body
  | ifElse span test yes no =>
    unfold ofNode
    dsimp only
    rw [List.all_append, List.all_cons, isPlain_body]
    cases no with
    | none => rfl
    | some no => exact isPlain_body _ no
  | logical span op left right =>
    rw [ofNode, List.all_append, isPlain_operand, isPlain_operand]
    rfl
  | labeled span s =>
    rw [ofNode]
    split
    · rfl
    · exact isPlain_body none s
  | whileLoop span test s => exact isPlain_body none s
  | doWhile span s test => exact isPlain_body none s
  | forLoop span init test step s =>
    rw [ofNode, List.all_append, isPlain_visits, isPlain_body]
    rfl
  | forEach span left right s => exact isPlain_body none s
  | defaulted span target value => rfl
  | conditional span test yes no => rfl
  | _ => exact isPlain_visits _

end ProbeStep

theorem Node.isPlain_marks {source : String} {n : Node} :
    ∀ m ∈ n.marks source, m.isPlain = true := by
  induction n using induct with
  | step n ih =>
    rw [marks_eq]
    intro m hm
    obtain ⟨step, hstep, hm⟩ := List.mem_flatMap.mp hm
    cases step with
    | mark m' =>
      cases List.mem_singleton.mp hm
      exact List.all_eq_true.mp (ProbeStep.isPlain_ofNode source n) _ hstep
    | visit c => exact ih c (ProbeStep.mem_children_of_visit hstep) m hm

namespace Program

variable {p : Program} {c : Category}

/-- The places of all probes of a program, in the order of the traversal. -/
def sites (p : Program) : List ProbeSite := p.items.flatMap (Node.sites p.source)

def sitesOf (p : Program) (c : Category) : List ProbeSite := p.sites.filter (·.category = c)

/-- How often the call of an item is in the texts that are inserted. -/
def calls (p : Program) (c : Category) (k : Nat) : Nat :=
  (p.insertions.map fun i => occurrences (c.probe k).toList i.text.toList).sum

theorem isPlain_marks : ∀ m ∈ p.marks, m.isPlain = true := by
  intro m hm
  obtain ⟨n, -, hm⟩ := List.mem_flatMap.mp hm
  exact Node.isPlain_marks m hm

theorem probesOf_marks (p : Program) (c : Category) :
    Mark.probesOf c p.marks = (p.sitesOf c).map ProbeSite.marked := by
  have hprobes : p.marks.flatMap Mark.probes = p.sites.map ProbeSite.marked := by
    rw [marks, sites, List.flatMap_assoc, List.map_flatMap]
    exact List.flatMap_congr fun n _ => n.probes_marks p.source
  rw [Mark.probesOf, ← List.filter_flatMap, hprobes, List.filter_map]
  rfl

theorem target_eq (p : Program) (c : Category) : p.target c = (p.sitesOf c).zipIdx.map fun x =>
    (x.2, (LineIndex.ofText p.source).clamped x.1.construct.span) := by
  rw [target, Mark.items_eq, probesOf_marks]
  simp [CoverTarget.ofRanges, List.zipIdx_map, ProbeSite.marked, Function.comp_def]

/-- The ids of a category are those of its probes: each is in the target and in one inserted text,
which stands where the construct has its probe, and the target has the range of the construct. -/
theorem probes_biject (p : Program) (c : Category) :
    (p.target c).ids = List.range (p.sitesOf c).length ∧
    (∀ k, p.calls c k = if k < (p.sitesOf c).length then 1 else 0) ∧
    ∀ k s, (p.sitesOf c)[k]? = some s →
      (p.target c)[k]? = some (k, (LineIndex.ofText p.source).clamped s.construct.span) ∧
      ∃ i ∈ p.insertions, i.offset = s.place ∧
        occurrences (c.probe k).toList i.text.toList = 1 := by
  have hzero (c) : ProbeCounts.get {} c = 0 := by cases c <;> rfl
  refine ⟨?_, fun k => ?_, fun k s hs => ⟨?_, ?_⟩⟩
  · rw [target_eq, CoverTarget.ids, List.map_map]
    exact List.zipIdx_map_snd 0 _ |>.trans (by simp [List.range_eq_range'])
  · rw [calls, insertions, Mark.sum_occurrences isPlain_marks, hzero, probesOf_marks]
    simp
  · simp [target_eq, hs]
  · have hcall := Mark.exists_call (c := c) isPlain_marks {} (k := k) (p := s.marked)
      (by rw [probesOf_marks, List.getElem?_map, hs]; rfl)
    rw [hzero, Nat.zero_add] at hcall
    exact hcall

end Program

end Adequacy
