import Adequacy.Proofs.LinePositions

namespace Adequacy

namespace Span

variable {s : Span} {size : Nat}

theorem clamp_of_le (h : s.start ≤ s.stop) (hs : s.stop ≤ size) : s.clamp size = s := by
  rw [clamp, Nat.min_eq_left hs, Nat.min_eq_left h]

theorem clamp_in (s : Span) (size : Nat) :
    (s.clamp size).start ≤ (s.clamp size).stop ∧ (s.clamp size).stop ≤ size :=
  ⟨Nat.min_le_right _ _, Nat.min_le_right _ _⟩

/-- A span has a text if both of its ends lie between characters. -/
theorem isSome_text?_iff {source : String} (h : s.start ≤ s.stop) : (s.text? source).isSome ↔
    isBoundary s.start source.toList = true ∧ isBoundary s.stop source.toList = true := by
  rw [text?, slice?, Option.isSome_map, sliceChars?]
  split
  next hb => simpa [h] using hb
  next hb => simpa [h] using hb

theorem exists_of_text? {source text : String} (h : s.text? source = some text) :
    ∃ front back, source = front ++ text ++ back ∧ front.utf8ByteSize = s.start ∧
      (front ++ text).utf8ByteSize = s.stop := by
  obtain ⟨as, bs, htext, hstart, hstop⟩ := slice?_eq_some_iff.mp h
  refine ⟨String.ofList as, String.ofList bs, ?_, ?_, ?_⟩
  · apply String.toList_injective
    simpa using htext
  · rw [utf8ByteSize_eq_byteSize, String.toList_ofList, hstart]
  · rw [utf8ByteSize_eq_byteSize, String.toList_append, String.toList_ofList, byteSize_append,
      hstop]

end Span

/-- A range is that of a span of a text. -/
structure SourceRange.IsOf (text : String) (s : Span) (r : SourceRange) : Prop where
  start_at : r.start.IsAt text s.start
  stop_at : r.stop.IsAt text s.stop

namespace SourceRange.IsOf

variable {text : String} {s : Span} {r : SourceRange}

theorem span_eq (h : r.IsOf text s) : r.span = s := by
  rw [span, h.start_at.index_eq, h.stop_at.index_eq]

/-- Lines count from 1, those of the default range do not. -/
theorem ne_default (h : r.IsOf text s) : r ≠ default := by
  rintro rfl
  exact absurd h.start_at.line_eq (Nat.succ_ne_zero _).symm

end SourceRange.IsOf

namespace LineIndex

variable {source : String} {s : Span} {r : SourceRange}

theorem le_of_position? {i : LineIndex} {offset : Nat} {p : Position}
    (h : i.position? offset = some p) : offset ≤ i.size :=
  (Option.ite_none_right_eq_some.mp h).1

/-- Whichever check a span fails, it is refused with its own offsets. -/
theorem range?_cases (i : LineIndex) (s : Span) :
    (∃ r, i.range? s = .ok r ∧ s.start ≤ s.stop ∧ s.stop ≤ i.size) ∨
    (i.range? s = .error ⟨s, i.size⟩ ∧ ¬ (s.start ≤ s.stop ∧ s.stop ≤ i.size)) := by
  rw [range?]
  split
  next hlt => exact .inr ⟨rfl, fun h => by omega⟩
  next hle =>
    split
    next start stop hstart hstop =>
      exact .inl ⟨⟨start, stop⟩, rfl, by omega, le_of_position? hstop⟩
    next hnone =>
      refine .inr ⟨rfl, ?_⟩
      rintro ⟨h, hs⟩
      exact hnone _ _ (position?_of_le (h.trans hs)) (position?_of_le hs)

theorem isOk_range?_iff {i : LineIndex} :
    (∃ r, i.range? s = .ok r) ↔ s.start ≤ s.stop ∧ s.stop ≤ i.size := by
  rcases range?_cases i s with ⟨r, hr, hin⟩ | ⟨he, hout⟩
  · exact ⟨fun _ => hin, fun _ => ⟨r, hr⟩⟩
  · refine ⟨?_, fun hin => absurd hin hout⟩
    rintro ⟨r, hr⟩
    rw [he] at hr
    cases hr

theorem isOf_of_range? (h : (ofText source).range? s = .ok r) : r.IsOf source s := by
  obtain ⟨hle, hs⟩ := isOk_range?_iff.mp ⟨r, h⟩
  rw [range?_of_le hle hs] at h
  exact Except.ok.inj h ▸ ⟨position_isAt source s.start, position_isAt source s.stop⟩

theorem clamped_of_range? (h : (ofText source).range? s = .ok r) :
    (ofText source).clamped s = r := by
  obtain ⟨hle, hs⟩ := isOk_range?_iff.mp ⟨r, h⟩
  rw [clamped, Span.clamp_of_le hle hs, h]
  rfl

/-- Exactly the spans in order and in the text have a range, which tells the lines and columns of
their ends and gives back the span and, unless it splits a character, the covered text. Moved into
the text every span has a range: it is never the default one, that of a span which has one already,
and that of its own span. -/
theorem range?_resolves (source : String) (s : Span) :
    let i := ofText source
    SourceRange.ofSpan? source s = i.range? s ∧
    ((∃ r, i.range? s = .ok r) ↔ s.start ≤ s.stop ∧ s.stop ≤ source.utf8ByteSize) ∧
    (∀ e, i.range? s = .error e → e = ⟨s, source.utf8ByteSize⟩) ∧
    (∀ r, i.range? s = .ok r →
      r.IsOf source s ∧ r.span = s ∧ i.clamped s = r ∧
      ((r.text? source).isSome ↔
        isBoundary s.start source.toList = true ∧ isBoundary s.stop source.toList = true) ∧
      ∀ text, r.text? source = some text →
        ∃ front back, source = front ++ text ++ back ∧ front.utf8ByteSize = s.start ∧
          (front ++ text).utf8ByteSize = s.stop) ∧
    i.range? (s.clamp source.utf8ByteSize) = .ok (i.clamped s) ∧ i.clamped s ≠ default ∧
    (i.clamped s).IsOf source (s.clamp source.utf8ByteSize) ∧
    (i.clamped s).start.index ≤ (i.clamped s).stop.index ∧
    (i.clamped s).stop.index ≤ source.utf8ByteSize ∧
    i.clamped (i.clamped s).span = i.clamped s := by
  intro i
  have hclamp : i.range? (s.clamp source.utf8ByteSize) = .ok (i.clamped s) := by
    rw [clamped_eq]
    exact range?_clamp i s
  have hof := isOf_of_range? hclamp
  have hspan := hof.span_eq
  obtain ⟨hstart, hstop⟩ := s.clamp_in source.utf8ByteSize
  refine ⟨rfl, isOk_range?_iff, fun e he => ?_, fun r hr => ?_, hclamp, hof.ne_default, hof,
    ?_, ?_, ?_⟩
  · rcases range?_cases i s with ⟨r, hr, -⟩ | ⟨herror, -⟩
    · rw [hr] at he
      cases he
    · exact Except.error.inj (he.symm.trans herror)
  · have hr' := isOf_of_range? hr
    obtain ⟨hle, -⟩ := isOk_range?_iff.mp ⟨r, hr⟩
    refine ⟨hr', hr'.span_eq, clamped_of_range? hr, ?_, fun text htext => ?_⟩
    · rw [SourceRange.text?, hr'.span_eq]
      exact Span.isSome_text?_iff hle
    · rw [SourceRange.text?, hr'.span_eq] at htext
      exact Span.exists_of_text? htext
  · rw [hof.start_at.index_eq, hof.stop_at.index_eq]
    exact hstart
  · rw [hof.stop_at.index_eq]
    exact hstop
  · rw [hspan]
    exact clamped_of_range? hclamp

end LineIndex

end Adequacy
