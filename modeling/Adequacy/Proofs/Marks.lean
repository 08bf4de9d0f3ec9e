import Adequacy.Instrumentation
import Mathlib

namespace Adequacy

namespace Mark

/-- The counts once the probes of marks are numbered. -/
def counted (counts : ProbeCounts) : List Mark → ProbeCounts
  | [] => counts
  | m :: rest => counted (Piece.render counts m.pieces).2 rest

theorem insertions_append (counts : ProbeCounts) (ms ns : List Mark) :
    insertions counts (ms ++ ns) = insertions counts ms ++ insertions (counted counts ms) ns := by
  induction ms generalizing counts with
  | nil => rfl
  | cons m ms ih => simp only [List.cons_append, insertions, counted, ih]

theorem counted_append (counts : ProbeCounts) (ms ns : List Mark) :
    counted counts (ms ++ ns) = counted (counted counts ms) ns := by
  induction ms generalizing counts with
  | nil => rfl
  | cons m ms ih => simp only [List.cons_append, counted, ih]

theorem exists_of_mem_insertions {counts : ProbeCounts} {ms : List Mark} {i : Insertion}
    (h : i ∈ insertions counts ms) : ∃ m ∈ ms, m.offset = i.offset := by
  induction ms generalizing counts with
  | nil => cases h
  | cons m ms ih =>
    rcases List.mem_cons.mp h with rfl | h
    · exact ⟨m, .head _, rfl⟩
    · obtain ⟨m', hm, ho⟩ := ih h
      exact ⟨m', .tail _ hm, ho⟩

end Mark

theorem Node.eq_block_of_isBlock {n : Node} (h : n.isBlock = true) :
    ∃ span body, n = .block span body := by
  cases n with
  | block span body => exact ⟨span, body, rfl⟩
  | _ => cases h

namespace ProbeStep

/-- The marks that a step makes. -/
def marks (source : String) : ProbeStep → List Mark
  | mark m => [m]
  | visit c => c.marks source

/-- A body that is no block is wrapped. -/
theorem body_of_isBlock_eq_false {n : Node} (item : Option (Category × Span))
    (hb : n.isBlock = false) : body item n = [.mark ⟨n.span.start,
        .text "\x7b " :: item.toList.flatMap fun i => [.probe i.1 i.2, .text "; "]⟩] ++
      statements [n] ++ [.mark ⟨n.span.stop, [.text " \x7d"]⟩] := by
  unfold body
  split
  · cases hb
  · cases hb
  · cases item <;> rfl

end ProbeStep

theorem Node.marks_eq (source : String) (n : Node) :
    n.marks source = (ProbeStep.ofNode source n).flatMap (ProbeStep.marks source) := by
  rw [marks, List.flatMap_def, List.flatMap_def]
  refine congrArg _ (Eq.trans (List.map_congr_left ?_) List.attach_map_val)
  rintro ⟨step, h⟩ -
  cases step <;> rfl

end Adequacy
