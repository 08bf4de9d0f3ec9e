import Adequacy.Proofs.Confinement
import Adequacy.Proofs.Turning

namespace Adequacy

/-- Whether a text ends with a dollar sign that no backslash takes. -/
def endsOpen : List Char → Bool
  | [] => false
  | '\\' :: cs =>
    match cs with
    | [] => false
    | _ :: cs => endsOpen cs
  | c :: cs => (c == '$' && cs.isEmpty) || endsOpen cs

/-- Whether a dollar sign at the end of one text and a brace at the start of a later one meet once
the texts are joined: there are none between the two, or only empty ones. -/
def opensAcross : List String → Bool
  | [] => false
  | a :: later =>
    (endsOpen a.toList && (String.join later).toList.head? == some '\x7b') || opensAcross later

section texts

variable {a b : List Char} {texts : List String}

theorem isTemplateText_append (ha : isTemplateText a = true) :
    isTemplateText (a ++ b) = (isTemplateText b && !(endsOpen a && b.head? == some '\x7b')) := by
  fun_induction isTemplateText a with
  | case1 => simp [endsOpen]
  | case2 => cases ha
  | case3 c cs ih => simpa [isTemplateText, endsOpen] using ih ha
  | case4 c cs hc ih =>
    simp only [Bool.and_eq_true] at ha
    obtain ⟨⟨htick, hopen⟩, ha⟩ := ha
    rw [List.cons_append, isTemplateText.eq_4 _ _ hc, endsOpen.eq_4 _ _ hc, ih ha]
    cases cs with
    | nil => simp [htick, endsOpen, Bool.and_comm]
    | cons d cs =>
      have hopen : (!(c == '$' && (d :: cs ++ b).head? == some '\x7b')) = true := hopen
      simp only [htick, hopen, List.isEmpty_cons, Bool.and_false, Bool.false_or, Bool.true_and]

/-- Texts stand in one template once they are joined exactly if no dollar sign meets a brace. -/
theorem isTemplateText_join (h : ∀ t ∈ texts, isTemplateText t.toList = true) :
    isTemplateText (String.join texts).toList = !opensAcross texts := by
  induction texts with
  | nil => rfl
  | cons a later ih =>
    rw [List.forall_mem_cons] at h
    rw [String.join_cons, String.toList_append, isTemplateText_append h.1, ih h.2, opensAcross,
      Bool.not_or, Bool.and_comm]

theorem getLast?_of_endsOpen (h : endsOpen a = true) : a.getLast? = some '$' := by
  fun_induction endsOpen a with
  | case1 => cases h
  | case2 => cases h
  | case3 c cs ih =>
    rw [List.getLast?_cons, List.getLast?_cons, ih h]
    rfl
  | case4 c cs hc ih =>
    rw [List.getLast?_cons]
    rcases Bool.or_eq_true_iff.mp h with h | h
    · obtain ⟨hd, hn⟩ := Bool.and_eq_true_iff.mp h
      rw [List.isEmpty_iff.mp hn, eq_of_beq hd]
      rfl
    · rw [ih h]
      rfl

/-- Texts that begin an interpolation once they touch do so when they are joined. -/
theorem infix_of_opensInterpolation (h : Mutation.opensInterpolation texts = true) :
    "$\x7b".toList <:+: (String.join texts).toList := by
  fun_induction Mutation.opensInterpolation texts with
  | case1 a b later ih =>
    rw [String.join_cons, String.toList_append]
    rcases Bool.or_eq_true_iff.mp h with h | h
    · obtain ⟨ha, hb⟩ := Bool.and_eq_true_iff.mp h
      obtain ⟨front, hfront⟩ := List.getLast?_eq_some_iff.mp (eq_of_beq ha)
      obtain ⟨back, hback⟩ := List.head?_eq_some_iff.mp (eq_of_beq hb)
      refine ⟨front, back ++ (String.join later).toList, ?_⟩
      rw [String.join_cons, String.toList_append, hfront, hback]
      simp
    · exact (ih h).trans (List.suffix_append ..).isInfix
  | case2 => cases h

/-- If texts begin an interpolation once they are joined but none of them do that touch, the ones
that meet have an empty one between them. -/
theorem mem_empty_of_opensAcross (h : opensAcross texts = true)
    (ho : Mutation.opensInterpolation texts = false) : "" ∈ texts := by
  induction texts with
  | nil => cases h
  | cons a later ih =>
    cases later with
    | nil => simp [opensAcross] at h
    | cons b later =>
      obtain ⟨htouch, hlater⟩ := Bool.or_eq_false_iff.mp ho
      rcases Bool.or_eq_true_iff.mp h with h | h
      · obtain ⟨ha, hb⟩ := Bool.and_eq_true_iff.mp h
        by_cases hempty : b = ""
        · simp [hempty]
        · -- A text that is not empty gives the joined ones their first character.
          have hhead : b.toList.head? = some '\x7b' := by
            cases hcs : b.toList with
            | nil => exact absurd (String.toList_eq_nil_iff.mp hcs) hempty
            | cons c cs => simpa [hcs] using hb
          rw [getLast?_of_endsOpen ha, hhead] at htouch
          cases htouch
      · exact List.mem_cons_of_mem a (ih h hlater)

end texts

namespace Mutation

/-- Puts one template without interpolations in place of a template. -/
def flattening (node : Span) (texts : List String) : Mutation :=
  ⟨.stringLiteral, node, [⟨node, "\x60" ++ String.join texts ++ "\x60"⟩]⟩

variable {source : String} {s : Standing} {span : Span} {texts : List String} {values : List Node}
  {places : List Span}

theorem flattening_mem_ofNode (hvalues : values ≠ [])
    (hplaces : segments? source (span.start + 1) texts values = some places) :
    flattening span texts ∈ ofNode source s (.template span texts values) ↔
      opensInterpolation texts = false := by
  have hempty : values.isEmpty = false := by simpa using hvalues
  have hfiller : flattening span texts ∉ (places.filter (·.isEmpty)).map
      (⟨.stringLiteral, span, [⟨·, Catalog.filler⟩]⟩) := by
    intro hmem
    obtain ⟨place, -, heq⟩ := List.mem_map.mp hmem
    have htext : Catalog.filler = "\x60" ++ String.join texts ++ "\x60" := by
      injection heq with _ _ hpatch
      injection List.head_eq_of_cons_eq hpatch
    have hhead := congrArg (·.toList.head?) htext
    simp [Catalog.filler] at hhead
  unfold ofNode template
  simp only [hplaces, hempty, Bool.false_eq_true, ↓reduceIte]
  cases hopens : opensInterpolation texts with
  | true => simpa using hfiller
  | false =>
    simp only [Bool.false_eq_true, ↓reduceIte, iff_true]
    exact List.mem_append_right _ List.mem_cons_self

/-- The text of a template has room for its segments and for the marks of its interpolations. -/
theorem join_lt_of_segments {text : List Char} {start stop : Nat} {lo hi : Nat}
    (hs : Segments text start texts values stop) (hv : Node.AllLaidIn text lo hi values) :
    start + (String.join texts).utf8ByteSize + values.length + 1 ≤ stop := by
  induction hs with
  | last _ h => simpa using h
  | @more start stop brace raw later value values _ h hb hl ih =>
    rw [Node.allLaidIn_cons] at hv
    have hvalue := hv.1.laid.here.span_in.start_le_stop
    have hbrace := hb.le
    have hrest := ih hv.2
    rw [String.join_cons, String.utf8ByteSize_append, List.length_cons]
    omega

/-- Removing the interpolations of a template changes nothing but the template, and makes it
shorter. -/
theorem flattening_apply
    (hn : (Node.template span texts values).Everywhere (Node.Laid source.toList))
    (hvalues : values ≠ []) (id : Nat) :
    ∃ text q, (flattening span texts).patch.apply source = .ok (text, q) ∧ text ≠ source ∧
      (mutant source id (flattening span texts) text).Confined ∧
      (mutant source id (flattening span texts) text).fragment =
        "\x60" ++ String.join texts ++ "\x60" := by
  have hin := hn.here.span_in
  obtain ⟨front, back, q, hsource, hstart, happly⟩ :=
    (Patch.Turns.edit hin ("\x60" ++ String.join texts ++ "\x60")).apply
  have hroom := join_lt_of_segments hn.here.shaped.2 (Node.allLaidIn_children hn rfl)
  have hcount : 0 < values.length := List.length_pos_iff.mpr hvalues
  have hsize : ("\x60" ++ String.join texts ++ "\x60").utf8ByteSize =
      (String.join texts).utf8ByteSize + 2 := by
    rw [String.utf8ByteSize_append, String.utf8ByteSize_append]
    have hmark : "\x60".utf8ByteSize = 1 := rfl
    omega
  have hdelta : (flattening span texts).patch.delta =
      (String.join texts).utf8ByteSize + 2 - (span.stop - span.start : Int) := by
    simp only [flattening, Patch.delta, Edit.delta, hsize, Span.length]
    have := hin.start_le_stop
    simp only [Node.span] at this hroom
    omega
  simp only [Node.span] at hroom hstart
  refine ⟨_, q, happly, ?_, ?_, ?_⟩
  · intro heq
    have hlen := Patch.utf8ByteSize_of_apply happly
    have hdelta : Patch.delta [⟨span, "\x60" ++ String.join texts ++ "\x60"⟩] =
        (String.join texts).utf8ByteSize + 2 - (span.stop - span.start : Int) := hdelta
    rw [heq] at hlen
    simp only [Node.span] at hlen
    omega
  · refine confined_mutant happly ?_ hin.text?_isSome
    intro e he
    cases List.mem_singleton.mp he
    exact ⟨Nat.le_refl _, Nat.le_refl _⟩
  · have hfragment : slice? (String.ofList (front ++ (("\x60" ++ String.join texts ++
        "\x60").toList ++ back))) span.start (span.stop + (flattening span texts).patch.delta).toNat =
        some ("\x60" ++ String.join texts ++ "\x60") := by
      refine slice?_eq_some_iff.mpr ⟨front, back, ?_, hstart, ?_⟩
      · rw [String.toList_ofList, List.append_assoc]
      · rw [← utf8ByteSize_eq_byteSize, hsize, hdelta]
        omega
    exact congrArg (·.getD "") hfragment

end Mutation

namespace Generation

open Mutation

variable {options : MutationOptions} {source : String} {p : Program} {g : Generation}
  {s : Standing} {span : Span} {texts : List String} {values : List Node}

/-- A template with interpolations, all of whose segments are found, loses them if its joined
segments begin no interpolation. Whenever it loses them, the one mutant has the joined segments
between two marks in place of the template. These are one template without interpolations unless a
dollar sign and a brace meet over empty segments. -/
theorem flattens_templates (hp : Program.parse source = .ok p)
    (hs : Program.bareText source = source.toList) (hg : ofSource options source = .ok g)
    (hv : (s, .template span texts values) ∈ p.visits options.assertion) (hvalues : values ≠ [])
    (hplaces : (segments? source (span.start + 1) texts values).isSome) :
    let m := flattening span texts
    let joined := String.join texts
    (¬ "$\x7b".toList <:+: joined.toList →
        m ∈ ofNode source s (.template span texts values)) ∧
      (m ∈ ofNode source s (.template span texts values) →
        (∃ id text q, m.patch.apply source = .ok (text, q) ∧
          mutant source id m text ∈ g.mutants ∧ (mutant source id m text).Confined ∧
          (mutant source id m text).fragment = "\x60" ++ joined ++ "\x60") ∧
        (isTemplateText joined.toList = true ↔ opensAcross texts = false) ∧
        (opensAcross texts = true → "" ∈ texts)) := by
  obtain ⟨places, hplaces⟩ := Option.isSome_iff_exists.mp hplaces
  have hlaid := Program.laid_visits hp hs hv
  have hemitted := @flattening_mem_ofNode source s span texts values places hvalues hplaces
  refine ⟨fun hplain => hemitted.mpr ?_, fun hm => ⟨?_, ?_, fun hopens => ?_⟩⟩
  · by_contra hopens
    exact hplain (infix_of_opensInterpolation (Bool.eq_true_of_not_eq_false hopens))
  · obtain ⟨text, q, happly, hne, -⟩ := flattening_apply hlaid hvalues 0
    have hmem := (mem_ofProgram_iff hp).mpr ⟨_, hv, hm⟩
    obtain ⟨id, hid⟩ := exists_mem_mutants 0 hmem (changed?_eq_some_iff.mpr ⟨hne, q, happly⟩)
    obtain ⟨text', q', happly', -, hconfined, hfragment⟩ := flattening_apply hlaid hvalues id
    cases happly.symm.trans happly'
    rw [← mutants_of_ofSource hp hg] at hid
    exact ⟨id, text, q, happly, hid, hconfined, hfragment⟩
  · rw [isTemplateText_join hlaid.here.shaped.2.isTemplateText, Bool.not_eq_true']
  · exact mem_empty_of_opensAcross hopens (hemitted.mp hm)

/-- A template with text on both sides of its interpolation. -/
def spliced : Program :=
  ⟨"\x60a$\x7bb\x7dc\x60", false, [.other ⟨0, 8⟩ .expressionStatement
    [.template ⟨0, 8⟩ ["a", "c"] [.name ⟨4, 5⟩ "b"]]]⟩

theorem parse_spliced : Program.parse spliced.source = .ok spliced := by
  unfold Program.parse
  cbv

theorem flattens_templates_of_spliced : ∃ g x, ofSource {} spliced.source = .ok g ∧
    x ∈ g.mutants ∧ x.Confined ∧ x.fragment = "\x60ac\x60" ∧ isTemplateText "ac".toList = true := by
  have hv : (({}, .template ⟨0, 8⟩ ["a", "c"] [.name ⟨4, 5⟩ "b"]) : Standing × Node) ∈
      spliced.visits "__assert__" := by
    have hall : spliced.visits "__assert__" = [({}, spliced.items.head!),
        ({}, .template ⟨0, 8⟩ ["a", "c"] [.name ⟨4, 5⟩ "b"]), ({}, .name ⟨4, 5⟩ "b")] := by cbv
    rw [hall]
    exact .tail _ (.head _)
  have hplaces : (segments? spliced.source 1 ["a", "c"] [.name ⟨4, 5⟩ "b"]).isSome := by cbv
  have hg : ∃ g, ofSource {} spliced.source = .ok g := ⟨_, ofSource_of_parse parse_spliced⟩
  obtain ⟨g, hg⟩ := hg
  obtain ⟨hplain, hmade⟩ := flattens_templates parse_spliced rfl hg hv (by decide) hplaces
  obtain ⟨⟨id, text, q, -, hx, hconfined, hfragment⟩, htext, -⟩ := hmade (hplain (by decide))
  exact ⟨g, _, hg, hx, hconfined, hfragment, htext.mpr (by decide)⟩

/-- A template whose outer segments end and begin what they open together. -/
def reopened : Program :=
  ⟨"\x60$$\x7ba\x7d$\x7bb\x7d\x7b\x60", false, [.other ⟨0, 12⟩ .expressionStatement
    [.template ⟨0, 12⟩ ["$", "", "\x7b"] [.name ⟨4, 5⟩ "a", .name ⟨8, 9⟩ "b"]]]⟩

theorem parse_reopened : Program.parse reopened.source = .ok reopened := by
  unfold Program.parse
  cbv

/-- All segments are found and none are empty but the one in the middle, and what is left begins an
interpolation that nothing ends. -/
theorem not_flattens_templates_of_reopened :
    Program.parse reopened.source = .ok reopened ∧
      (∀ t ∈ ["$", "", "\x7b"], isTemplateText t.toList = true) ∧
      ∃ g x, ofSource {} reopened.source = .ok g ∧ x ∈ g.mutants ∧
        x.fragment = "\x60$\x7b\x60" ∧ isTemplateText "$\x7b".toList = false ∧
        ∀ q, Program.parse x.program ≠ .ok q := by
  let node : Node := .template ⟨0, 12⟩ ["$", "", "\x7b"] [.name ⟨4, 5⟩ "a", .name ⟨8, 9⟩ "b"]
  have hv : (({}, node) : Standing × Node) ∈ reopened.visits "__assert__" := by
    have hall : reopened.visits "__assert__" = [({}, reopened.items.head!), ({}, node),
        ({}, .name ⟨4, 5⟩ "a"), ({}, .name ⟨8, 9⟩ "b")] := by cbv
    rw [hall]
    exact .tail _ (.head _)
  have hplaces : segments? reopened.source 1 ["$", "", "\x7b"]
      [.name ⟨4, 5⟩ "a", .name ⟨8, 9⟩ "b"] = some [⟨1, 2⟩, ⟨6, 6⟩, ⟨10, 11⟩] := by cbv
  have hm : flattening ⟨0, 12⟩ ["$", "", "\x7b"] ∈ ofNode reopened.source {} node :=
    (flattening_mem_ofNode (by decide) hplaces).mpr (by decide)
  have happly : (flattening ⟨0, 12⟩ ["$", "", "\x7b"]).patch.apply reopened.source =
      .ok ("\x60$\x7b\x60", [⟨⟨0, 4⟩, reopened.source⟩]) := by cbv
  obtain ⟨g, id, hg, hx⟩ := exists_mutant {} parse_reopened rfl hv hm happly (by decide)
  have hbroken : Program.parse "\x60$\x7b\x60" = .error ⟨.unterminatedTemplate, ⟨3, 4⟩⟩ := by
    unfold Program.parse
    cbv
  refine ⟨parse_reopened, by decide, g, _, hg, hx, ?_, by decide, fun q hq => ?_⟩
  · have hslice : slice? "\x60$\x7b\x60" 0 4 = some "\x60$\x7b\x60" := by cbv
    exact congrArg (·.getD "") hslice
  · cases hbroken.symm.trans hq

end Generation

end Adequacy
