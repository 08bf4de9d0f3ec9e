import Adequacy.Proofs.PrintedProgram

namespace Adequacy

/-- Whether an offset is between the ends of a span. -/
def Span.holds (s : Span) (offset : Nat) : Bool := decide (s.start < offset ∧ offset < s.stop)

namespace Mark

variable {s : Span} {marks : List Mark}

theorem filter_insertions_eq_nil (h : ∀ m ∈ marks, m.offset ≤ s.start ∨ s.stop ≤ m.offset)
    (counts : ProbeCounts) : (insertions counts marks).filter (s.holds ·.offset) = [] := by
  refine List.filter_eq_nil_iff.mpr fun i hi => ?_
  obtain ⟨m, hm, ho⟩ := exists_of_mem_insertions hi
  have hout := h m hm
  rw [Span.holds, decide_eq_true_eq, ← ho]
  omega

theorem filter_insertions_eq_self (h : ∀ m ∈ marks, s.start < m.offset ∧ m.offset < s.stop)
    (counts : ProbeCounts) :
    (insertions counts marks).filter (s.holds ·.offset) = insertions counts marks := by
  refine List.filter_eq_self.mpr fun i hi => ?_
  obtain ⟨m, hm, ho⟩ := exists_of_mem_insertions hi
  rw [Span.holds, decide_eq_true_eq, ← ho]
  exact h m hm

end Mark

namespace Program

variable {p : Program} {span : Span} {r : Instrumentation}

/-- The program with probes has a text in place of what is under a span. Around it stands the rest
of the source, with what is inserted there. -/
def Shows (p : Program) (r : Instrumentation) (span : Span) (text : List Char) : Prop :=
  r.program.toList =
    Insertion.woven (p.insertions.filter (·.offset ≤ span.start)) 0
        (takeBytes span.start p.source.toList) ++
      (text ++ Insertion.woven (p.insertions.filter (span.stop ≤ ·.offset)) span.stop
        (dropBytes span.stop p.source.toList))

/-- What is inserted between the ends of a span makes the text that takes its place. -/
theorem shows_woven (h : p.Nested) (hr : r.program = p.print) (hin : span.In p.source.toList)
    (hlt : span.start < span.stop) :
    p.Shows r span (Insertion.woven (p.insertions.filter (span.holds ·.offset)) span.start
      (span.chars p.source.toList)) := by
  obtain ⟨as, mid, bs, htext, hstart, hstop⟩ := hin.exists_text
  have hchars : span.chars p.source.toList = mid := Span.chars_eq htext hstart hstop
  have htake : takeBytes span.start p.source.toList = as := by
    rw [htext, List.append_assoc, ← hstart, takeBytes_byteSize_append]
  have hdrop : dropBytes span.stop p.source.toList = bs := by
    rw [htext, ← hstop, ← byteSize_append, dropBytes_byteSize_append]
  let later := p.insertions.filter fun i => !decide (i.offset ≤ span.start)
  have hlater : Insertion.woven later span.start (mid ++ bs) =
      Insertion.woven (later.filter fun i => decide (i.offset < span.stop)) span.start mid ++
        Insertion.woven (later.filter fun i => !decide (i.offset < span.stop)) span.stop bs := by
    rw [← hstop, hstart]
    exact Insertion.woven_split later (fun o => decide (o < span.start + byteSize mid))
      (by simp; omega) (by simp)
  have hall : Insertion.woven p.insertions 0 (as ++ (mid ++ bs)) =
      Insertion.woven (p.insertions.filter fun i => decide (i.offset ≤ span.start)) 0 as ++
        Insertion.woven later span.start (mid ++ bs) := by
    have hsplit : Insertion.woven p.insertions 0 (as ++ (mid ++ bs)) = _ :=
      Insertion.woven_split p.insertions (fun o => decide (o ≤ span.start)) (by simp [hstart])
        (by simp [hstart]; omega)
    rwa [hstart, Nat.zero_add] at hsplit
  have hmiddle : later.filter (fun i => decide (i.offset < span.stop)) =
      p.insertions.filter (span.holds ·.offset) := by
    rw [List.filter_filter]
    refine List.filter_congr fun i _ => ?_
    rw [Bool.eq_iff_iff, Span.holds]
    simp
    omega
  have hback : later.filter (fun i => !decide (i.offset < span.stop)) =
      p.insertions.filter fun i => decide (span.stop ≤ i.offset) := by
    rw [List.filter_filter]
    refine List.filter_congr fun i _ => ?_
    rw [Bool.eq_iff_iff]
    simp
    omega
  rw [Shows, hr, print_eq_woven h, hchars, htake, hdrop, htext, List.append_assoc, hall, hlater,
    hmiddle, hback]

end Program

end Adequacy
