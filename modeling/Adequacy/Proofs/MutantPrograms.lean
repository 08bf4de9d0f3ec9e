import Adequacy.Proofs.AssertionCalls

namespace Adequacy

theorem textBefore?_eq_some_iff {text front : String} {stop : Nat} :
    textBefore? text stop = some front ↔
      ∃ rest, text.toList = front.toList ++ rest ∧ byteSize front.toList = stop := by
  rw [textBefore?, slice?_eq_some_iff]
  constructor
  · rintro ⟨as, rest, htext, has, hstop⟩
    obtain rfl := eq_nil_of_byteSize_eq_zero has
    exact ⟨rest, by simpa using htext, by simpa using hstop⟩
  · rintro ⟨rest, htext, hstop⟩
    exact ⟨[], rest, by simpa using htext, rfl, by simpa using hstop⟩

theorem slice?_to_end_eq_some_iff {text back : String} {start : Nat} :
    slice? text start text.utf8ByteSize = some back ↔
      ∃ front, text.toList = front ++ back.toList ∧ byteSize front = start := by
  rw [slice?_eq_some_iff, utf8ByteSize_eq_byteSize]
  constructor
  · rintro ⟨front, bs, htext, hstart, hstop⟩
    rw [htext, byteSize_append, byteSize_append] at hstop
    obtain rfl := eq_nil_of_byteSize_eq_zero (show byteSize bs = 0 by omega)
    exact ⟨front, by simpa using htext, hstart⟩
  · rintro ⟨front, htext, hstart⟩
    exact ⟨front, [], by simpa using htext, hstart, by rw [htext, byteSize_append]⟩

/-- The range of a span that lies in the text is that of the span. -/
theorem Span.In.span_clamped {source : String} {s : Span} (h : s.In source.toList) :
    ((LineIndex.ofText source).clamped s).span = s := by
  have hstop : s.stop ≤ (LineIndex.ofText source).size := le_of_isBoundary h.stop_isBoundary
  rw [LineIndex.clamped_eq, Nat.min_eq_left hstop, Nat.min_eq_left h.start_le_stop]
  rfl

namespace Mutant

variable {x : Mutant} {s : Span} {t : String}

/-- The mutated text is a program again. -/
def Parses (x : Mutant) : Prop := ∃ p, Program.parse x.program = .ok p

/-- The text in front of the place that a confined mutant reports stays where it is. -/
theorem Confined.keeps_before (h : x.Confined) (hs : s.stop ≤ x.location.start.index)
    (ht : s.text? x.source = some t) : s.text? x.program = some t := by
  obtain ⟨before, after, hbefore, -, hprogram⟩ := h
  obtain ⟨rest, hsplit, hsize⟩ := textBefore?_eq_some_iff.mp hbefore
  obtain ⟨as, bs, hsource, hstart, hstop⟩ := slice?_eq_some_iff.mp ht
  obtain ⟨mid, hmid, -⟩ := exists_append_of_byteSize_le (hsource.symm.trans hsplit)
    (by rw [byteSize_append]; omega)
  refine slice?_eq_some_iff.mpr
    ⟨as, mid ++ (x.fragment.toList ++ after.toList), ?_, hstart, hstop⟩
  rw [hprogram, String.toList_append, String.toList_append, hmid]
  simp

/-- The text behind the place that a confined mutant reports moves as a whole. -/
theorem Confined.keeps_after (h : x.Confined) (hs : x.location.stop.index ≤ s.start)
    (ht : s.text? x.source = some t) :
    slice? x.program (s.start + x.program.utf8ByteSize - x.source.utf8ByteSize)
      (s.stop + x.program.utf8ByteSize - x.source.utf8ByteSize) = some t := by
  obtain ⟨before, after, -, hafter, hprogram⟩ := h
  obtain ⟨front, hsplit, hsize⟩ := slice?_to_end_eq_some_iff.mp hafter
  obtain ⟨as, bs, hsource, hstart, hstop⟩ := slice?_eq_some_iff.mp ht
  obtain ⟨mid, rfl, hmid⟩ := exists_append_of_byteSize_le
    (hsplit.symm.trans (hsource.trans (List.append_assoc ..))) (by omega)
  have hold := congrArg byteSize hsplit
  have hnew := congrArg (byteSize ·.toList) hprogram
  simp only [String.toList_append, byteSize_append, ← utf8ByteSize_eq_byteSize] at hold hnew
  simp only [byteSize_append, ← utf8ByteSize_eq_byteSize] at hstart hstop
  refine slice?_eq_some_iff.mpr
    ⟨before.toList ++ x.fragment.toList ++ mid, bs, ?_, ?_, ?_⟩
  · rw [hprogram, String.toList_append, String.toList_append, hmid]
    simp
  · simp only [byteSize_append, ← utf8ByteSize_eq_byteSize]
    omega
  · simp only [byteSize_append, ← utf8ByteSize_eq_byteSize]
    omega

/-- A span that holds the place of a confined mutant is all that has another text. -/
theorem Confined.exists_texts (h : x.Confined) (hs : s.In x.source.toList)
    (hin : s.Holds x.location.span) : ∃ front old new back,
      x.source.toList = front ++ old ++ back ∧ x.program.toList = front ++ new ++ back ∧
        byteSize front = s.start ∧ byteSize front + byteSize old = s.stop := by
  obtain ⟨before, after, hbefore, hafter, hprogram⟩ := h
  obtain ⟨front, old, back, hsource, hstart, hstop⟩ := hs.exists_text
  obtain ⟨rest, hsplit, hfirst⟩ := textBefore?_eq_some_iff.mp hbefore
  obtain ⟨covered, hcovered, hlast⟩ := slice?_to_end_eq_some_iff.mp hafter
  have hle : s.start ≤ x.location.start.index := hin.1
  have hge : x.location.stop.index ≤ s.stop := hin.2
  -- The text in front of the place begins with that in front of the span, the text behind ends so.
  obtain ⟨left, hleft, -⟩ := exists_append_of_byteSize_le
    (((List.append_assoc ..).symm.trans hsource.symm).trans hsplit) (by omega)
  obtain ⟨right, -, hright⟩ := exists_append_of_byteSize_le (hcovered.symm.trans hsource)
    (by rw [byteSize_append]; omega)
  refine ⟨front, old, left ++ x.fragment.toList ++ right, back, hsource, ?_, hstart, hstop⟩
  rw [hprogram, String.toList_append, String.toList_append, hleft, hright]
  simp

/-- The mutant has another text for one item of its source, that which its place is in. The items in
front of it stand where they did, and those behind it are moved as they are. -/
structure ChangesItem (x : Mutant) (before : List Node) (item : Node) (after : List Node) :
    Prop where
  holds : item.span.Holds x.location.span
  changed : ∃ front old new back,
    x.source.toList = front ++ old ++ back ∧ x.program.toList = front ++ new ++ back ∧
      byteSize front = item.span.start ∧ byteSize front + byteSize old = item.span.stop
  before_kept : ∀ n ∈ before, n.span.stop ≤ item.span.start ∧
    ∃ t, n.span.text? x.source = some t ∧ n.span.text? x.program = some t
  after_kept : ∀ n ∈ after, item.span.stop ≤ n.span.start ∧
    ∃ t, n.span.text? x.source = some t ∧
      slice? x.program (n.span.start + x.program.utf8ByteSize - x.source.utf8ByteSize)
        (n.span.stop + x.program.utf8ByteSize - x.source.utf8ByteSize) = some t

/-- A confined mutant changes the item that its place is in, if the items are in order. -/
theorem Confined.changesItem {before after : List Node} {item : Node} (h : x.Confined)
    (hin : ∀ n ∈ before ++ item :: after, n.span.In x.source.toList)
    (ho : (before ++ item :: after).Pairwise (·.span.stop ≤ ·.span.start))
    (hitem : item.span.Holds x.location.span) : x.ChangesItem before item after := by
  obtain ⟨-, hlater, hearlier⟩ := List.pairwise_append.mp ho
  have hafter := (List.pairwise_cons.mp hlater).1
  have hstart : item.span.start ≤ x.location.start.index := hitem.1
  have hstop : x.location.stop.index ≤ item.span.stop := hitem.2
  refine ⟨hitem, h.exists_texts (hin item (by simp)) hitem, fun n hn => ?_, fun n hn => ?_⟩
  · obtain ⟨t, ht⟩ := Option.isSome_iff_exists.mp (hin n (by simp [hn])).text?_isSome
    have hle := hearlier n hn item List.mem_cons_self
    exact ⟨hle, t, ht, h.keeps_before (hle.trans hstart) ht⟩
  · obtain ⟨t, ht⟩ := Option.isSome_iff_exists.mp (hin n (by simp [hn])).text?_isSome
    have hle := hafter n hn
    exact ⟨hle, t, ht, h.keeps_after (hstop.trans hle) ht⟩

end Mutant

namespace Generation

variable {options : MutationOptions} {source : String} {p : Program} {g : Generation} {x : Mutant}

theorem invalid?_eq_none_iff : invalid? x = none ↔ x.Parses := by
  unfold invalid? Mutant.Parses
  cases Program.parse x.program with
  | ok q => simp
  | error e => simp

/-- A number with an optional access behind it. -/
def numberChain : Program :=
  ⟨"1?.b", false, [.other ⟨0, 4⟩ .expressionStatement
    [.chainMember ⟨0, 4⟩ true (.literal ⟨0, 1⟩ .number) none]]⟩

theorem parse_numberChain : Program.parse numberChain.source = .ok numberChain := by
  unfold Program.parse
  cbv

theorem mutant_numberChain : ∃ g id, ofSource { verifySyntax := true } numberChain.source = .ok g ∧
    Mutation.mutant numberChain.source id ⟨.optionalChain, ⟨0, 4⟩, [⟨⟨1, 3⟩, "."⟩]⟩ "1.b" ∈
      g.mutants := by
  let link : Node := .chainMember ⟨0, 4⟩ true (.literal ⟨0, 1⟩ .number) none
  have hv : (({}, link) : Standing × Node) ∈ numberChain.visits "__assert__" := by
    have hall : numberChain.visits "__assert__" = [({}, numberChain.items.head!), ({}, link),
        ({ onChain := true }, .literal ⟨0, 1⟩ .number)] := by cbv
    rw [hall]
    exact .tail _ (.head _)
  have hm : ⟨.optionalChain, ⟨0, 4⟩, [⟨⟨1, 3⟩, "."⟩]⟩ ∈
      Mutation.ofNode numberChain.source {} link := by
    have hmark : Token.find? numberChain.source 1 "?." = some ⟨1, 3⟩ := by cbv
    simp [link, Mutation.ofNode, Mutation.chainPatch, Mutation.mandatory, Node.span, hmark]
  have happly : Patch.apply [⟨⟨1, 3⟩, "."⟩] numberChain.source =
      .ok ("1.b", [⟨⟨1, 2⟩, "?."⟩]) := by cbv
  exact exists_mutant { verifySyntax := true } parse_numberChain rfl hv hm happly (by decide)

theorem parse_dotted_number : Program.parse "1.b" = .error ⟨.nameAfterNumber, ⟨2, 2⟩⟩ := by
  unfold Program.parse
  cbv

theorem source_of_mem_mutants (hp : Program.parse source = .ok p)
    (hg : ofSource options source = .ok g) (hx : x ∈ g.mutants) : x.source = source := by
  rw [mutants_of_ofSource hp hg] at hx
  obtain ⟨m, -, text, -, hx⟩ := Mutation.exists_of_mem_mutants hx
  rw [hx]
  rfl

/-- A visited node that can be mutated lies in one of the items. -/
theorem exists_item {assertion : String} {v : Standing × Node} (hp : Program.parse source = .ok p)
    (hv : v ∈ p.visits assertion) (hm : v.2.isMutable = true) :
    ∃ before item after, p.items = before ++ item :: after ∧ item.span.Holds v.2.span := by
  obtain ⟨item, hitem, hvisit⟩ := List.mem_flatMap.mp hv
  obtain ⟨before, after, hitems⟩ := List.append_of_mem hitem
  obtain ⟨lo, hi, hall⟩ := Program.allWithin_items hp
  have hshows := Node.shows_of_mem_visits hvisit hm
  have hkept := (hall.1 item hitem).kept
  exact ⟨before, item, after, hitems, hkept.bounds item (List.mem_singleton_self item) hshows⟩

/-- A chain between two other items. -/
def enclosed : Program :=
  ⟨"é;a?.b;c", false, [.other ⟨0, 3⟩ .expressionStatement [.name ⟨0, 2⟩ "é"],
    .other ⟨3, 8⟩ .expressionStatement [.chainMember ⟨3, 7⟩ true (.name ⟨3, 4⟩ "a") none],
    .other ⟨8, 9⟩ .expressionStatement [.name ⟨8, 9⟩ "c"]]⟩

theorem parse_enclosed : Program.parse enclosed.source = .ok enclosed := by
  unfold Program.parse
  cbv

theorem plainLookups_enclosed :
    ∀ v ∈ enclosed.visits "__assert__", v.2.plainLookups enclosed.source = true :=
  List.all_eq_true.mp (by cbv)

/-- A line without a semicolon, and a logical expression behind it. -/
def unended : Program :=
  ⟨"x\na && b || c", false, [.other ⟨0, 1⟩ .expressionStatement [.name ⟨0, 1⟩ "x"],
    .other ⟨2, 13⟩ .expressionStatement [.logical ⟨2, 13⟩ .or
      (.logical ⟨2, 8⟩ .and (.name ⟨2, 3⟩ "a") (.name ⟨7, 8⟩ "b")) (.name ⟨12, 13⟩ "c")]]⟩

theorem parse_unended : Program.parse unended.source = .ok unended := by
  unfold Program.parse
  cbv

end Generation

end Adequacy
