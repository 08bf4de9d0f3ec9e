import Adequacy.Proofs.MutantRecords
import Adequacy.Proofs.ResolvedSpans
import Adequacy.Report

namespace Adequacy

namespace Json

variable {depth : Nat} {m : String × Json} {members : List (String × Json)}

theorem fits_object_nil : Fits (depth + 1) (object []) := .object fun _ h => nomatch h

theorem Fits.object_cons (hm : Fits depth m.2) (h : Fits (depth + 1) (Json.object members)) :
    Fits (depth + 1) (Json.object (m :: members)) := by
  cases h with
  | object h => exact .object (List.forall_mem_cons.mpr ⟨hm, h⟩)

end Json

open Json

namespace Position

variable {p : Position} {bound : Nat}

theorem Below.mono {larger : Nat} (h : p.Below bound) (hle : bound ≤ larger) : p.Below larger :=
  ⟨h.index.trans_le hle, h.line.trans_le hle, h.column.trans_le hle⟩

theorem IsAt.below {text : String} {offset : Nat} (h : p.IsAt text offset)
    (hoffset : offset + 1 < bound) : p.Below bound := by
  have hsum := h.line_add_column_le
  exact ⟨by rw [h.index_eq]; omega, by omega, by omega⟩

theorem fits_toJson (h : p.Below (2 ^ 64)) (depth : Nat) : Fits (depth + 1) p.toJson :=
  .object_cons (.nat h.index) (.object_cons (.nat h.line) (.object_cons (.nat h.column)
    fits_object_nil))

end Position

namespace SourceRange

variable {r : SourceRange} {bound : Nat}

theorem Below.mono {larger : Nat} (h : r.Below bound) (hle : bound ≤ larger) : r.Below larger :=
  ⟨h.start.mono hle, h.stop.mono hle⟩

theorem fits_toJson (h : r.Below (2 ^ 64)) (depth : Nat) : Fits (depth + 2) r.toJson :=
  .object_cons (Position.fits_toJson h.start depth) (.object_cons
    (Position.fits_toJson h.stop depth) fits_object_nil)

end SourceRange

theorem Mutant.fits_toJson {m : Mutant} (h : m.Fits) (depth : Nat) :
    Json.Fits (depth + 3) m.toJson :=
  have hlocation := h.location.mono (by decide : 2 ^ 32 ≤ 2 ^ 64)
  .object_cons (.nat h.id) (.object_cons (.string _) (.object_cons (.string _)
    (.object_cons (.string _) (.object_cons (SourceRange.fits_toJson hlocation depth)
      (.object_cons (.string _) fits_object_nil)))))

namespace Mutant

theorem mem_summarize {ms : List Mutant} {k : MutantKind} {n : Nat} (h : (k, n) ∈ summarize ms) :
    n = ms.countP (·.kind = k) := by
  obtain ⟨h, -⟩ := List.mem_filter.mp h
  obtain ⟨kind, -, heq⟩ := List.mem_map.mp h
  cases heq
  rfl

/-- Each mutant is counted for one kind. -/
theorem sum_counts (ms : List Mutant) :
    (MutantKind.all.map fun k => ms.countP (·.kind = k)).sum = ms.length := by
  induction ms with
  | nil => rfl
  | cons m ms ih =>
    have hone : (MutantKind.all.map fun k => if m.kind = k then 1 else 0).sum = 1 := by
      cases m.kind <;> rfl
    simp only [List.countP_cons, decide_eq_true_eq, List.sum_map_add, ih, hone, List.length_cons]

theorem sum_summarize (ms : List Mutant) : ((summarize ms).map (·.2)).sum = ms.length := by
  have hpositive (counts : List (MutantKind × Nat)) :
      ((counts.filter (0 < ·.2)).map (·.2)).sum = (counts.map (·.2)).sum := by
    induction counts with
    | nil => rfl
    | cons c counts ih =>
      rw [List.filter_cons]
      split
      next => rw [List.map_cons, List.sum_cons, ih, List.map_cons, List.sum_cons]
      next hzero =>
        have hc : c.2 = 0 := by simpa using hzero
        rw [ih, List.map_cons, List.sum_cons, hc, Nat.zero_add]
  rw [summarize, hpositive, List.map_map]
  exact sum_counts ms

theorem nodup_summarize (ms : List Mutant) : ((summarize ms).map (·.1.name)).Nodup := by
  have hnames : (MutantKind.all.map MutantKind.name).Nodup := by decide
  refine List.Nodup.sublist ?_ hnames
  have hsub := (List.filter_sublist (p := fun c : MutantKind × Nat => decide (0 < c.2))
    (l := MutantKind.all.map fun k => (k, ms.countP (·.kind = k)))).map (·.1.name)
  rwa [List.map_map] at hsub

end Mutant

/-- An outcome as a run of the program can give it: all numbers have room in the fields that they
are kept in, and the source has fewer than `2 ^ 63` bytes. -/
def FileOutcome.Fits : FileOutcome → Prop
  | mutated _ source g =>
    (∀ m ∈ g.mutants, m.Fits) ∧ g.mutants.length < 2 ^ 64 ∧ source.utf8ByteSize < 2 ^ 63
  | failed _ _ range => ∀ r ∈ range, r.Below (2 ^ 32)

namespace Report

section fits

theorem fits_rangeMember {range : Option SourceRange} (h : ∀ r ∈ range, r.Below (2 ^ 64))
    (depth : Nat) : Fits (depth + 3) (.object (rangeMember range)) := by
  cases range with
  | none => exact fits_object_nil
  | some r => exact .object_cons (SourceRange.fits_toJson (h r rfl) depth) fits_object_nil

theorem fits_diagnostic {source : String} (hsource : source.utf8ByteSize < 2 ^ 63) (path : String)
    (d : Diagnostic) (depth : Nat) : Fits (depth + 3) (diagnostic path source d) := by
  refine .object_cons (.string _) (.object_cons (.string _) (.object_cons (.string _)
    (.object_cons (.string _) (fits_rangeMember (fun r hr => ?_) depth))))
  obtain ⟨s, -, hr⟩ := Option.bind_eq_some_iff.mp hr
  have hrange : (LineIndex.ofText source).range? s = .ok r := by
    cases hof : (LineIndex.ofText source).range? s with
    | error e =>
      rw [SourceRange.ofSpan?, hof] at hr
      cases hr
    | ok q =>
      rw [SourceRange.ofSpan?, hof] at hr
      rw [Option.some.inj hr]
  obtain ⟨hstart, hstop⟩ := LineIndex.isOk_range?_iff.mp ⟨r, hrange⟩
  have hr := LineIndex.isOf_of_range? hrange
  have hstop : s.stop ≤ source.utf8ByteSize := hstop
  exact ⟨hr.start_at.below (by omega), hr.stop_at.below (by omega)⟩

theorem fits_counts {ms : List Mutant} (h : ms.length < 2 ^ 64) (depth : Nat) :
    Fits (depth + 1) (counts ms) := by
  refine .object fun m hm => ?_
  obtain ⟨⟨k, n⟩, hc, rfl⟩ := List.mem_map.mp hm
  rw [Mutant.mem_summarize hc]
  exact .nat (List.countP_le_length.trans_lt h)

theorem fits_outcomeValue {o : FileOutcome} (h : o.Fits) (depth : Nat) :
    Fits (depth + 5) (outcomeValue o) := by
  cases o with
  | mutated path source g =>
    obtain ⟨hms, hlength, hsource⟩ := h
    have hmutants : Fits (depth + 4) (.array (g.mutants.map Mutant.toJson)) := by
      refine .array fun v hv => ?_
      obtain ⟨m, hm, rfl⟩ := List.mem_map.mp hv
      exact Mutant.fits_toJson (hms m hm) depth
    have hdiagnostics : Fits (depth + 4) (.array (g.diagnostics.map (diagnostic path source))) := by
      refine .array fun v hv => ?_
      obtain ⟨d, -, rfl⟩ := List.mem_map.mp hv
      exact fits_diagnostic hsource path d depth
    exact .object_cons (.string _) (.object_cons (fits_counts hlength (depth + 3))
      (.object_cons hmutants (.object_cons hdiagnostics fits_object_nil)))
  | failed path message range =>
    have hrange := fits_rangeMember (fun r hr => (h r hr).mono (by decide)) (depth + 2)
    exact .object_cons (.string _) (.object_cons (.string _) hrange)

end fits

end Report

namespace FileOutcome

/-- What an entry of a report tells about a file: its mutants, which are read back from it, with
the number of those of each kind, or why and where it failed. -/
def IsTold : FileOutcome → Json → Prop
  | mutated path _ g, entry =>
    entry.member? "filename" = some (.string path) ∧ entry.member? "error" = none ∧
    (∃ v, entry.member? "mutants" = some v ∧ Mutant.read v.compact = .ok g.mutants) ∧
    (∃ counts, entry.member? "counts" = some (.object counts) ∧
      counts.Perm ((Mutant.summarize g.mutants).map fun (k, n) => (k.name, .nat n))) ∧
    ((Mutant.summarize g.mutants).map (·.2)).sum = g.mutants.length
  | failed path message range, entry =>
    entry.member? "filename" = some (.string path) ∧
    entry.member? "error" = some (.string message) ∧
    match range with
    | none => entry.member? "range" = none
    | some r => ∃ v, entry.member? "range" = some v ∧
      JsonReader.readAll SourceRange.reader v.compact = .ok r

theorem member?_sorted_of_eq {v w : Json} {name : String} (h : v.member? name = some w) :
    v.sorted.member? name = some w.sorted := by
  rw [member?_sorted, h]
  rfl

theorem isTold_mutated {path source : String} {g : Generation}
    (h : (mutated path source g).Fits) :
    (mutated path source g).IsTold (Report.outcomeValue (mutated path source g)).sorted := by
  obtain ⟨hms, -, -⟩ := h
  have hmutants := member?_sorted_of_eq
    (show (Report.outcomeValue (mutated path source g)).member? "mutants" =
      some (.array (g.mutants.map Mutant.toJson)) from rfl)
  have hcounts := member?_sorted_of_eq
    (show (Report.outcomeValue (mutated path source g)).member? "counts" =
      some (Report.counts g.mutants) from rfl)
  rw [sorted_array, List.map_map] at hmutants
  rw [Report.counts, sorted_object, List.map_map] at hcounts
  refine ⟨(member?_sorted_of_eq rfl).trans (by rw [sorted_of_isScalar rfl]), ?_,
    ⟨_, hmutants, ?_⟩, ⟨_, hcounts, ?_⟩, Mutant.sum_summarize g.mutants⟩
  · rw [member?_sorted]
    rfl
  · exact Mutant.read_compact (fun m _ => m.shows_toJson.sorted) hms
  · have hnames := Mutant.nodup_summarize g.mutants
    refine (perm_sortMembers (by rwa [List.map_map])).trans (.of_eq ?_)
    refine List.map_congr_left fun c _ => ?_
    exact congrArg (Prod.mk c.1.name) (sorted_of_isScalar rfl)

theorem isTold_failed {path message : String} {range : Option SourceRange}
    (h : (failed path message range).Fits) :
    (failed path message range).IsTold
      (Report.outcomeValue (failed path message range)).sorted := by
  cases range with
  | none =>
    refine ⟨(member?_sorted_of_eq rfl).trans (by rw [sorted_of_isScalar rfl]),
      (member?_sorted_of_eq rfl).trans (by rw [sorted_of_isScalar rfl]), ?_⟩
    rw [member?_sorted]
    rfl
  | some r =>
    refine ⟨(member?_sorted_of_eq rfl).trans (by rw [sorted_of_isScalar rfl]),
      (member?_sorted_of_eq rfl).trans (by rw [sorted_of_isScalar rfl]), _,
      member?_sorted_of_eq rfl, ?_⟩
    have hread := r.shows_toJson.sorted.reads (h r rfl) .tight 0
    rw [← toList_compact] at hread
    exact JsonReader.readAll_of_reads hread

theorem isTold_outcomeValue {o : FileOutcome} (h : o.Fits) :
    o.IsTold (Report.outcomeValue o).sorted := by
  cases o with
  | mutated path source g => exact isTold_mutated h
  | failed path message range => exact isTold_failed h

end FileOutcome

/-- Mutants are read back from what they are written as, and a report is read as a list with an
entry for each file in the order of the files, which tells all that came of it. -/
theorem Report.mutations_told {ms : List Mutant} {outcomes : List FileOutcome}
    (hms : ∀ m ∈ ms, m.Fits) (houtcomes : ∀ o ∈ outcomes, o.Fits) (withDetail : Bool) :
    Mutant.read (Mutant.write ms) = .ok ms ∧
    ∃ entries, Json.parse (Report.mutations .json outcomes withDetail) = .ok (.array entries) ∧
      List.Forall₂ FileOutcome.IsTold outcomes entries := by
  have hfits : Fits JsonReader.maxDepth (.array (outcomes.map Report.outcomeValue)) := by
    refine .array fun v hv => ?_
    obtain ⟨o, ho, rfl⟩ := List.mem_map.mp hv
    exact Report.fits_outcomeValue (houtcomes o ho) 121
  have hparse := parse_pretty hfits.sorted
  rw [sorted_sorted, sorted_array, List.map_map] at hparse
  refine ⟨Mutant.read_write hms, outcomes.map (sorted ∘ Report.outcomeValue), ?_, ?_⟩
  · rw [Report.mutations, sorted_array, List.map_map]
    exact hparse
  · rw [List.forall₂_map_right_iff, List.forall₂_same]
    exact fun o ho => FileOutcome.isTold_outcomeValue (houtcomes o ho)

/-- Outcomes with all that is written as an escape in their texts, with separators and other
characters that are not, and with the greatest numbers. -/
def FileOutcome.escaped : List FileOutcome :=
  let last : Position := ⟨4294967295, 4294967295, 4294967295⟩
  let m : Mutant := ⟨18446744073709551615, .stringLiteral, "f('\"\\\u0000\u001f\u007f\u2028\r\n')",
    "😀\tf(\"\\u0041\")", ⟨default, last⟩, "\"\""⟩
  [.mutated "a\"b.js" m.source
      ⟨[m, { m with id := 1, kind := .cond }], [⟨.invalidMutant, "not \u2029", some ⟨0, 1⟩⟩]⟩,
    .failed "\\.js" "no\nfile" none, .failed "c.js" "expected \"\u0007\"" (some ⟨last, last⟩)]

theorem FileOutcome.fits_escaped : ∀ o ∈ FileOutcome.escaped, o.Fits := by
  have hlast : (⟨4294967295, 4294967295, 4294967295⟩ : Position).Below (2 ^ 32) :=
    ⟨by decide, by decide, by decide⟩
  have hfirst : (default : Position).Below (2 ^ 32) := ⟨by decide, by decide, by decide⟩
  refine List.forall_mem_cons.mpr ⟨⟨?_, by decide, ?_⟩,
    List.forall_mem_cons.mpr ⟨nofun, List.forall_mem_singleton.mpr ?_⟩⟩
  · refine List.forall_mem_cons.mpr ⟨⟨by decide, ⟨hfirst, hlast⟩⟩, List.forall_mem_singleton.mpr ?_⟩
    exact ⟨by decide, ⟨hfirst, hlast⟩⟩
  · rw [utf8ByteSize_eq_byteSize]
    decide
  · intro r hr
    cases hr
    exact ⟨hlast, hlast⟩

theorem Report.escaped_told :
    (∀ m ∈ FileOutcome.escaped.flatMap (·.mutants), m.Fits) ∧
    (∀ o ∈ FileOutcome.escaped, o.Fits) ∧
    Mutant.read (Mutant.write (FileOutcome.escaped.flatMap (·.mutants))) =
      .ok (FileOutcome.escaped.flatMap (·.mutants)) ∧
    ∃ entries, Json.parse (Report.mutations .json FileOutcome.escaped true) = .ok (.array entries) ∧
      List.Forall₂ FileOutcome.IsTold FileOutcome.escaped entries := by
  have houtcomes := FileOutcome.fits_escaped
  have hms : ∀ m ∈ FileOutcome.escaped.flatMap (·.mutants), m.Fits := by
    intro m hm
    obtain ⟨o, ho, hm⟩ := List.mem_flatMap.mp hm
    cases o with
    | mutated path source g => exact (houtcomes _ ho).1 m hm
    | failed path message range => cases hm
  exact ⟨hms, houtcomes, Report.mutations_told hms houtcomes true⟩

end Adequacy
