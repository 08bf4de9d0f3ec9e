import Adequacy.Proofs.Fitting
import Adequacy.Proofs.Weaving

namespace Adequacy

namespace Cut

theorem edits_append (pos : Nat) (cuts later : List Cut) : edits pos (cuts ++ later) =
    edits pos cuts ++ edits (pos + byteSize (before cuts [])) later := by
  induction cuts generalizing pos with
  | nil => simp [edits, before]
  | cons c cuts ih => simp [edits, before, ih, Nat.add_assoc]

theorem before_append (cuts later : List Cut) (rest : List Char) :
    before (cuts ++ later) rest = before cuts [] ++ before later rest := by
  induction cuts with
  | nil => rfl
  | cons c cuts ih => simp [before, ih]

theorem before_eq (cuts : List Cut) (rest : List Char) :
    before cuts rest = before cuts [] ++ rest := by
  have h := before_append cuts [] rest
  rwa [List.append_nil] at h

theorem after_append (cuts later : List Cut) (rest : List Char) :
    after (cuts ++ later) rest = after cuts [] ++ after later rest := by
  simp only [after, List.map_append, before_append]

theorem after_eq (cuts : List Cut) (rest : List Char) : after cuts rest = after cuts [] ++ rest :=
  before_eq _ rest

end Cut

namespace Patch

/-- What a patch makes of the text under a span. -/
structure Turns (source : List Char) (span : Span) (p : Patch) (new : List Char) : Prop where
  span_in : span.In source
  exists_cuts : ∃ cuts rest, p = Cut.edits span.start cuts ∧
    span.chars source = Cut.before cuts rest ∧ new = Cut.after cuts rest

namespace Turns

variable {source : List Char} {span : Span} {a b c : Nat} {p q : Patch} {new new' : List Char}

theorem keep (h : span.In source) : Turns source span [] (span.chars source) :=
  ⟨h, [], _, rfl, rfl, rfl⟩

theorem edit (h : span.In source) (text : String) :
    Turns source span [⟨span, text⟩] text.toList := by
  refine ⟨h, [⟨[], span.chars source, text.toList⟩], [], ?_, ?_, ?_⟩
  · have hsize := h.byteSize_chars
    have hle := h.start_le_stop
    have hstop : span.start + byteSize (span.chars source) = span.stop := by omega
    simp [Cut.edits, hstop]
  · simp [Cut.before]
  · simp [Cut.after, Cut.before, Cut.swap]

theorem insert {offset : Nat} (h : isBoundary offset source = true) (text : String) :
    Turns source ⟨offset, offset⟩ [Edit.insert offset text] text.toList :=
  edit ⟨h, h, Nat.le_refl _⟩ text

/-- Patches of two stretches of a text, one behind the other, are a patch of both. -/
theorem append (hp : Turns source ⟨a, b⟩ p new) (hq : Turns source ⟨b, c⟩ q new') :
    Turns source ⟨a, c⟩ (p ++ q) (new ++ new') := by
  have hab := hp.span_in
  have hbc := hq.span_in
  obtain ⟨cuts, rest, rfl, hold, rfl⟩ := hp.exists_cuts
  obtain ⟨cuts', rest', rfl, hold', rfl⟩ := hq.exists_cuts
  refine ⟨⟨hab.start_isBoundary, hbc.stop_isBoundary,
    hab.start_le_stop.trans hbc.start_le_stop⟩, ?_⟩
  have hchars := hab.chars_append hbc
  rw [hold, hold'] at hchars
  have hsize := hab.byteSize_chars
  have hle := hab.start_le_stop
  rw [hold, Cut.before_eq, byteSize_append] at hsize
  dsimp only at hsize hle
  cases cuts' with
  | nil =>
    refine ⟨cuts, rest ++ rest', List.append_nil _, ?_, ?_⟩
    · rw [hchars, Cut.before_eq cuts rest, Cut.before_eq cuts (rest ++ rest'), List.append_assoc]
      rfl
    · rw [Cut.after_eq cuts rest, Cut.after_eq cuts (rest ++ rest'), List.append_assoc]
      rfl
  | cons d later =>
    -- What the first patch leaves at its end is kept in front of the first cut of the second.
    refine ⟨cuts ++ ⟨rest ++ d.kept, d.old, d.new⟩ :: later, rest', ?_, ?_, ?_⟩
    · have hstart : a + byteSize (Cut.before cuts []) + byteSize (rest ++ d.kept) =
          b + byteSize d.kept := by
        rw [byteSize_append]
        omega
      rw [Cut.edits_append]
      simp only [Cut.edits, hstart]
    · rw [hchars, Cut.before_append, Cut.before_eq cuts rest]
      simp only [Cut.before, List.append_assoc]
    · rw [Cut.after_append, Cut.after_eq cuts rest]
      simp only [Cut.after_cons, List.append_assoc]

/-- The text around the span is kept. -/
theorem apply {source : String} (h : Turns source.toList span p new) : ∃ front back q,
    source.toList = front ++ (span.chars source.toList ++ back) ∧ byteSize front = span.start ∧
    p.apply source = .ok (String.ofList (front ++ (new ++ back)), q) := by
  obtain ⟨a, b⟩ := span
  obtain ⟨front, mid, back, htext, hstart, hstop⟩ := h.span_in.exists_text
  have hmid := Span.chars_eq htext hstart hstop
  dsimp only at hstart hstop
  have hsize : byteSize source.toList = b + byteSize back := by
    rw [htext, byteSize_append, byteSize_append, hstop]
  have hfront : Span.In source.toList ⟨0, a⟩ :=
    ⟨isBoundary_iff.mpr ⟨[], _, rfl, rfl⟩, h.span_in.start_isBoundary, Nat.zero_le _⟩
  have hback : Span.In source.toList ⟨b, byteSize source.toList⟩ :=
    ⟨h.span_in.stop_isBoundary, isBoundary_iff.mpr ⟨_, [], (List.append_nil _).symm, rfl⟩,
      by dsimp only; omega⟩
  have hfrontText : Span.chars source.toList ⟨0, a⟩ = front :=
    have hnil : source.toList = [] ++ front ++ (mid ++ back) := by rw [htext]; simp
    Span.chars_eq hnil rfl (by simpa using hstart)
  have hbackText : Span.chars source.toList ⟨b, byteSize source.toList⟩ = back :=
    have hnil : source.toList = front ++ mid ++ back ++ [] := by rw [htext, List.append_nil]
    Span.chars_eq hnil (by simpa using hstop) (by rw [byteSize_append, hstop, hsize])
  have hall := ((keep hfront).append h).append (keep hback)
  rw [List.nil_append, List.append_nil, hfrontText, hbackText] at hall
  obtain ⟨cuts, rest, hedits, hold, hnew⟩ := hall.exists_cuts
  have happly := apply_edits cuts rest
  rw [Span.chars_whole] at hold
  rw [← hold, String.ofList_toList] at happly
  refine ⟨front, back, Cut.edits 0 (cuts.map Cut.swap), ?_, hstart, ?_⟩
  · rw [hmid, htext, List.append_assoc]
  · rw [hedits, happly, ← hnew, List.append_assoc]

end Turns

end Patch

end Adequacy
