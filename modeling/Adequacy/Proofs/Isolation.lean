import Adequacy.Generation
import Adequacy.Proofs.PatchInverse

namespace Adequacy

/-- Every edit of the mutation lies in the span of its node. -/
def Mutation.Inside (m : Mutation) : Prop :=
  ∀ e ∈ m.patch, m.node.start ≤ e.span.start ∧ e.span.stop ≤ m.node.stop

/-- The mutant is its source but for the text at its location, which its fragment takes the place
of. -/
def Mutant.Confined (x : Mutant) : Prop :=
  ∃ before after, textBefore? x.source x.location.start.index = some before ∧
    slice? x.source x.location.stop.index x.source.utf8ByteSize = some after ∧
    x.program = before ++ x.fragment ++ after

namespace Cut

/-- Cuts that end before a suffix of the text keep the suffix. -/
theorem exists_suffix {front as bs : List Char} {cuts : List Cut} {rest : List Char}
    (h : front ++ before cuts rest = as ++ bs) (hf : byteSize front ≤ byteSize as)
    (hs : ∀ e ∈ edits (byteSize front) cuts, e.span.stop ≤ byteSize as) :
    ∃ old new, before cuts rest = old ++ bs ∧ after cuts rest = new ++ bs ∧ as = front ++ old := by
  induction cuts generalizing front with
  | nil =>
    obtain ⟨mid, h1, h2⟩ := exists_append_of_byteSize_le h hf
    exact ⟨mid, mid, h2, h2, h1⟩
  | cons c later ih =>
    have hstop := hs _ List.mem_cons_self
    have hfront : byteSize (front ++ c.kept ++ c.old) =
        byteSize front + byteSize c.kept + byteSize c.old := by
      rw [byteSize_append, byteSize_append]
    obtain ⟨old, new, h1, h2, h3⟩ := @ih (front ++ c.kept ++ c.old)
      (by rw [← h]; simp [before]) (by rw [hfront]; exact hstop) (by
        intro e he
        rw [hfront] at he
        exact hs e (List.mem_cons_of_mem _ he))
    refine ⟨c.kept ++ (c.old ++ old), c.kept ++ (c.new ++ new), ?_, ?_, ?_⟩
    · rw [before, h1]; simp
    · rw [after_cons, h2]; simp
    · rw [h3]; simp

/-- Cuts between two ends of a text change only what is between them. -/
theorem exists_middle {as mid bs : List Char} {cuts : List Cut} {rest : List Char}
    (h : before cuts rest = as ++ mid ++ bs)
    (hs : ∀ e ∈ edits 0 cuts, byteSize as ≤ e.span.start ∧ e.span.stop ≤ byteSize (as ++ mid)) :
    ∃ new, after cuts rest = as ++ new ++ bs := by
  cases cuts with
  | nil => exact ⟨mid, h⟩
  | cons c later =>
    have hc := hs _ List.mem_cons_self
    simp only [Nat.zero_add] at hc
    have hfront : byteSize (c.kept ++ c.old) = 0 + byteSize c.kept + byteSize c.old := by
      rw [byteSize_append]; omega
    have hcuts : (c.kept ++ c.old) ++ before later rest = (as ++ mid) ++ bs := by
      rw [← h, before]; simp
    obtain ⟨kept, h1, -⟩ := exists_append_of_byteSize_le
      (show as ++ (mid ++ bs) = c.kept ++ (c.old ++ before later rest) by simpa using hcuts.symm)
      hc.1
    obtain ⟨old, new, -, h2, -⟩ := exists_suffix hcuts (by omega) (by
      intro e he
      rw [hfront] at he
      exact (hs e (List.mem_cons_of_mem _ he)).2)
    exact ⟨kept ++ (c.new ++ new), by rw [after_cons, h1, h2]; simp⟩

end Cut

namespace Patch

/-- A patch within a span of the text changes nothing else, and what it makes of the text of the
span has the length of that text but for the change in length of the patch. -/
theorem apply_inside {p q : Patch} {text new : String} {s : Span} {as mid bs : List Char}
    (h : p.apply text = .ok (new, q)) (ht : text.toList = as ++ mid ++ bs)
    (hstart : byteSize as = s.start) (hstop : byteSize as + byteSize mid = s.stop)
    (hp : ∀ e ∈ p, s.start ≤ e.span.start ∧ e.span.stop ≤ s.stop) :
    ∃ piece, new.toList = as ++ piece ++ bs ∧
      (byteSize as + byteSize piece : Int) = s.stop + p.delta := by
  have hlen := utf8ByteSize_of_apply h
  obtain ⟨cuts, rest, htext, horder, hnew, -⟩ := apply_eq_ok_iff.mp h
  have hbefore : Cut.before cuts rest = as ++ mid ++ bs := by
    rw [← ht, htext, String.toList_ofList]
  obtain ⟨piece, hafter⟩ := Cut.exists_middle hbefore (by
    intro e he
    rw [← horder] at he
    have := hp e (p.inOrder_perm.mem_iff.mp he)
    rw [byteSize_append]
    omega)
  have hnew' : new.toList = as ++ piece ++ bs := by rw [hnew, String.toList_ofList, hafter]
  refine ⟨piece, hnew', ?_⟩
  rw [utf8ByteSize_eq_byteSize, utf8ByteSize_eq_byteSize, ht, hnew'] at hlen
  simp only [byteSize_append] at hlen
  omega

end Patch

namespace Mutation

/-- The mutant that a mutation is kept as. -/
def mutant (source : String) (id : Nat) (m : Mutation) (text : String) : Mutant where
  id := id
  kind := m.kind
  program := text
  source := source
  location := (LineIndex.ofText source).clamped m.node
  fragment := (slice? text m.node.start (m.node.stop + m.patch.delta).toNat).getD ""

/-- What a mutation makes of an untouched source, if it changes it at all. -/
def changed? (source : String) (m : Mutation) : Option String :=
  match m.patch.apply source with
  | .ok (text, _) => if text = source then none else some text
  | .error _ => none

/-- The remark on a mutation that does not fit an untouched source. -/
def refusal? (source : String) (m : Mutation) : Option Diagnostic :=
  match m.patch.apply source with
  | .ok _ => none
  | .error e => some (Workbench.failure m "apply" e)

/-- The mutants that mutations of an untouched source lead to, numbered from an offset on. -/
def mutants (source : String) : Nat → List Mutation → List Mutant
  | _, [] => []
  | n, m :: later =>
    match changed? source m with
    | some text => mutant source (n + 1) m text :: mutants source (n + 1) later
    | none => mutants source n later

theorem changed?_eq_some_iff {source text : String} {m : Mutation} :
    changed? source m = some text ↔
      text ≠ source ∧ ∃ q, m.patch.apply source = .ok (text, q) := by
  unfold changed?
  split
  next new q h =>
    rw [h]
    constructor
    · intro hh
      split at hh
      · cases hh
      next hne => cases hh; exact ⟨hne, q, rfl⟩
    · rintro ⟨hne, q', hq⟩
      cases hq
      rw [if_neg hne]
  next e h =>
    rw [h]
    simp

theorem ids_mutants (source : String) (n : Nat) (ms : List Mutation) :
    (mutants source n ms).map (·.id) =
      List.range' (n + 1) (mutants source n ms).length := by
  induction ms generalizing n with
  | nil => rfl
  | cons m later ih =>
    unfold mutants
    split
    next text h =>
      simp only [List.map_cons, List.length_cons, List.range'_succ, ih]
      rfl
    next h => exact ih n

theorem programs_mutants (source : String) (n : Nat) (ms : List Mutation) :
    (mutants source n ms).map (fun x => (x.kind, x.program)) =
      ms.filterMap fun m => (changed? source m).map (m.kind, ·) := by
  induction ms generalizing n with
  | nil => rfl
  | cons m later ih =>
    unfold mutants
    split
    next text h => simp [h, ih, mutant]
    next h => simp [h, ih]

theorem exists_of_mem_mutants {source : String} {n : Nat} {ms : List Mutation} {x : Mutant}
    (h : x ∈ mutants source n ms) :
    ∃ m ∈ ms, ∃ text, changed? source m = some text ∧ x = mutant source x.id m text := by
  induction ms generalizing n with
  | nil => cases h
  | cons m later ih =>
    unfold mutants at h
    split at h
    next text hc =>
      rcases List.mem_cons.mp h with rfl | h
      · exact ⟨m, List.mem_cons_self, text, hc, rfl⟩
      · obtain ⟨m', hm, hx⟩ := ih h
        exact ⟨m', List.mem_cons_of_mem m hm, hx⟩
    next =>
      obtain ⟨m', hm, hx⟩ := ih h
      exact ⟨m', List.mem_cons_of_mem m hm, hx⟩

/-- A mutation that changes the source leads to a mutant. -/
theorem exists_mem_mutants {source text : String} {ms : List Mutation} {m : Mutation} (n : Nat)
    (hm : m ∈ ms) (h : changed? source m = some text) :
    ∃ id, mutant source id m text ∈ mutants source n ms := by
  induction ms generalizing n with
  | nil => cases hm
  | cons a later ih =>
    unfold mutants
    rcases List.mem_cons.mp hm with rfl | hm
    · rw [h]
      exact ⟨n + 1, List.mem_cons_self⟩
    · split
      next =>
        obtain ⟨id, hid⟩ := ih (n + 1) hm
        exact ⟨id, List.mem_cons_of_mem _ hid⟩
      next => exact ih n hm

/-- A mutation inside its node leads to a confined mutant. -/
theorem confined_mutant {source text : String} {id : Nat} {m : Mutation} {q : Patch}
    (h : m.patch.apply source = .ok (text, q)) (hm : m.Inside)
    (hn : (m.node.text? source).isSome) : (mutant source id m text).Confined := by
  obtain ⟨old, hold⟩ := Option.isSome_iff_exists.mp hn
  obtain ⟨as, bs, ht, hstart, hstop⟩ := slice?_eq_some_iff.mp hold
  obtain ⟨piece, hnew, hlen⟩ := Patch.apply_inside h ht hstart hstop hm
  have hsize : source.utf8ByteSize = byteSize as + byteSize old.toList + byteSize bs := by
    rw [utf8ByteSize_eq_byteSize, ht, byteSize_append, byteSize_append]
  have hloc : (mutant source id m text).location.start.index = m.node.start ∧
      (mutant source id m text).location.stop.index = m.node.stop := by
    simp only [mutant, LineIndex.clamped_eq, LineIndex.position, LineIndex.ofText, hsize]
    omega
  have hfragment : (mutant source id m text).fragment = String.ofList piece := by
    have : slice? text m.node.start (m.node.stop + m.patch.delta).toNat =
        some (String.ofList piece) := by
      refine slice?_eq_some_iff.mpr ⟨as, bs, ?_, hstart, ?_⟩
      · rw [String.toList_ofList, hnew]
      · rw [String.toList_ofList]; omega
    simp only [mutant, this, Option.getD_some]
  refine ⟨String.ofList as, String.ofList bs, ?_, ?_, ?_⟩
  · rw [hloc.1]
    refine slice?_eq_some_iff.mpr ⟨[], old.toList ++ bs, ?_, rfl, ?_⟩
    · simp [mutant, ht]
    · simp [hstart]
  · rw [hloc.2]
    refine slice?_eq_some_iff.mpr ⟨as ++ old.toList, [], ?_, ?_, ?_⟩
    · simp [mutant, ht]
    · rw [byteSize_append, hstop]
    · simp only [mutant, String.toList_ofList, byteSize_append, hsize]
  · rw [hfragment]
    apply String.toList_injective
    simp [mutant, hnew]

end Mutation

namespace Workbench

/-- On an untouched text, whatever was done before, a mutation is made and taken back. -/
theorem perform_untouched {w : Workbench} (m : Mutation) (hw : w.working = w.source) :
    w.perform m =
      { w with
        mutants := w.mutants ++ Mutation.mutants w.source w.mutants.length [m]
        diagnostics := w.diagnostics ++ (Mutation.refusal? w.source m).toList } := by
  obtain ⟨source, working, made, remarks⟩ := w
  cases (hw : working = source)
  cases h : m.patch.apply source with
  | error e => simp [perform, h, Mutation.mutants, Mutation.changed?, Mutation.refusal?, report]
  | ok r =>
    obtain ⟨text, inverse⟩ := r
    have hback := Patch.apply_inverse h
    by_cases ht : text = source
    · subst ht
      simp [perform, h, hback, capture, Mutation.mutants, Mutation.changed?, Mutation.refusal?]
    · simp [perform, h, hback, capture, Mutation.mutants, Mutation.changed?, Mutation.refusal?, ht,
        Mutation.mutant]

theorem performAll_untouched {w : Workbench} (ms : List Mutation) (hw : w.working = w.source) :
    w.performAll ms =
      { w with
        mutants := w.mutants ++ Mutation.mutants w.source w.mutants.length ms
        diagnostics := w.diagnostics ++ ms.filterMap (Mutation.refusal? w.source) } := by
  induction ms generalizing w with
  | nil => simp [performAll, Mutation.mutants]
  | cons m later ih =>
    have hstep := perform_untouched m hw
    have hrest := @ih (w.perform m) (by rw [hstep]; exact hw)
    rw [performAll, List.foldl_cons, ← performAll, hrest, hstep]
    congr 1
    · cases h : Mutation.changed? w.source m <;> simp [Mutation.mutants, h]
    · cases h : Mutation.refusal? w.source m <;> simp [h]

/-- What mutations lead to one after the other is known from each of them made in the untouched
source. -/
theorem performAll_ofSource (source : String) (ms : List Mutation) :
    (ofSource source).performAll ms =
      ⟨source, source, Mutation.mutants source 0 ms, ms.filterMap (Mutation.refusal? source)⟩ := by
  rw [performAll_untouched ms rfl]
  simp [ofSource]

end Workbench

namespace Mutation

theorem refusal?_eq_some_iff {source : String} {m : Mutation} {d : Diagnostic} :
    refusal? source m = some d ↔
      ∃ e, m.patch.apply source = .error e ∧ d = Workbench.failure m "apply" e := by
  unfold refusal?
  split
  next r h => simp [h]
  next e h =>
    rw [h]
    constructor
    · intro hh
      exact ⟨e, rfl, (Option.some.inj hh).symm⟩
    · rintro ⟨e', he, rfl⟩
      cases he
      rfl

theorem code_of_mem_refusals {source : String} {ms : List Mutation} {d : Diagnostic}
    (h : d ∈ ms.filterMap (refusal? source)) : d.code = .invariantViolation := by
  obtain ⟨m, -, hm⟩ := List.mem_filterMap.mp h
  obtain ⟨e, -, rfl⟩ := refusal?_eq_some_iff.mp hm
  rfl

end Mutation

/-- Every remark on a mutation that does not fit counts as a broken invariant. -/
theorem find?_refusals (source : String) (ms : List Mutation) :
    (ms.filterMap (Mutation.refusal? source)).find? (·.code = .invariantViolation) =
      (ms.filterMap (Mutation.refusal? source)).head? := by
  have hcode := fun d => @Mutation.code_of_mem_refusals source ms d
  cases h : ms.filterMap (Mutation.refusal? source) with
  | nil => rfl
  | cons d later =>
    rw [h] at hcode
    simp [hcode d List.mem_cons_self]

namespace Generation

/-- The generation from a program, by what its mutations lead to one by one. In strict mode the
first mutation that does not fit ends it. -/
theorem ofSource_of_parse {options : MutationOptions} {source : String} {p : Program}
    (h : Program.parse source = .ok p) :
    ofSource options source =
      let ms := Mutation.ofProgram options.assertion p
      let made := Mutation.mutants source 0 ms
      match if options.strict then (ms.filterMap (Mutation.refusal? source)).head? else none with
      | some d => .error (.invariant d.message made)
      | none => .ok ⟨made, ms.filterMap (Mutation.refusal? source) ++
          if options.verifySyntax then made.filterMap invalid? else []⟩ := by
  simp only [ofSource, h, Except.mapError, bind, Except.bind, Workbench.performAll_ofSource, finish,
    ↓reduceIte, find?_refusals]
  cases options.strict with
  | false => rfl
  | true =>
    cases ((Mutation.ofProgram options.assertion p).filterMap (Mutation.refusal? source)).head? with
    | none => rfl
    | some d => rfl

/-- The message tells neither of a mutation that was not taken back nor of a text that is not what
it was. -/
def TellsNoLeak (message : String) : Prop :=
  ¬ "could not revert".toList <+: message.toList ∧
    message ≠ "program text differs from the original after generation"

theorem tellsNoLeak_of_prefix {start message : String} (h : start.toList <+: message.toList)
    (hs : start = "could not apply " ∨ start = "mutant #") : TellsNoLeak message := by
  have hne : ¬ ("could not revert".toList <+: start.toList ∨
      start.toList <+: "could not revert".toList) ∧
      ¬ start.toList <+: "program text differs from the original after generation".toList := by
    rcases hs with rfl | rfl <;> decide
  constructor
  · intro hp
    exact hne.1 (List.prefix_or_prefix_of_prefix hp h)
  · rintro rfl
    exact hne.2 h

theorem tellsNoLeak_failure (m : Mutation) (e : PatchError) :
    TellsNoLeak (Workbench.failure m "apply" e).message := by
  refine tellsNoLeak_of_prefix ?_ (Or.inl rfl)
  refine ⟨(m.kind.name ++ " mutation: " ++ e.message).toList, ?_⟩
  simp [Workbench.failure, toString]

theorem tellsNoLeak_invalid? {x : Mutant} {d : Diagnostic} (h : invalid? x = some d) :
    TellsNoLeak d.message := by
  unfold invalid? at h
  split at h
  next => cases h
  next e _ =>
    cases h
    refine tellsNoLeak_of_prefix ?_ (Or.inr rfl)
    refine ⟨(toString x.id ++ " (" ++ x.kind.name ++ ") does not parse: " ++
      e.display x.program).toList, ?_⟩
    simp [toString]

/-- However a generation ends, nothing it tells is of a mutation that was not taken back. -/
theorem ofSource_tellsNoLeak (options : MutationOptions) (source : String) :
    (∀ g, ofSource options source = .ok g → ∀ d ∈ g.diagnostics, TellsNoLeak d.message) ∧
      ∀ message made, ofSource options source = .error (.invariant message made) →
        TellsNoLeak message := by
  cases hp : Program.parse source with
  | error e => simp [ofSource, hp, Except.mapError, bind, Except.bind]
  | ok p =>
    have hrefusal : ∀ d ∈ (Mutation.ofProgram options.assertion p).filterMap
        (Mutation.refusal? source), TellsNoLeak d.message := by
      intro d hd
      obtain ⟨m, -, hm⟩ := List.mem_filterMap.mp hd
      obtain ⟨e, -, rfl⟩ := Mutation.refusal?_eq_some_iff.mp hm
      exact tellsNoLeak_failure m e
    rw [ofSource_of_parse hp]
    constructor
    · intro g hg d hd
      dsimp only at hg
      split at hg
      next => cases hg
      next =>
        cases hg
        rcases List.mem_append.mp hd with hd | hd
        · exact hrefusal d hd
        · split at hd
          · obtain ⟨x, -, hx⟩ := List.mem_filterMap.mp hd
            exact tellsNoLeak_invalid? hx
          · cases hd
    · intro message made hg
      dsimp only at hg
      split at hg
      next d hd =>
        cases hg
        split at hd
        · exact hrefusal d (List.mem_of_head? hd)
        · cases hd
      next => cases hg

end Generation

namespace Workbench

/-- Mutations that are made one after the other neither compose nor leave anything behind: each
leads to what it leads to in the untouched source, whatever was made before. -/
theorem performAll_isolated (source : String) (before : List Mutation) (m : Mutation) :
    let w := (ofSource source).performAll before
    (w.source = source ∧ w.working = source ∧ (w.perform m).working = source) ∧
      (w.mutants.map (·.id) = List.range' 1 w.mutants.length ∧
        w.mutants.map (fun x => (x.kind, x.program)) =
          before.filterMap (fun m => (Mutation.changed? source m).map (m.kind, ·)) ∧
        (∀ x ∈ w.mutants, x.source = source ∧ x.program ≠ source) ∧
        w.diagnostics = before.filterMap (Mutation.refusal? source)) ∧
      (∀ e, m.patch.apply source = .error e →
        w.perform m = { w with diagnostics := w.diagnostics ++ [failure m "apply" e] }) ∧
      (∀ text q, m.patch.apply source = .ok (text, q) →
        (text = source → w.perform m = w) ∧
        (text ≠ source → ∃ x : Mutant, w.perform m = { w with mutants := w.mutants ++ [x] } ∧
          x.id = w.mutants.length + 1 ∧ x.kind = m.kind ∧ x.program = text ∧ x.source = source ∧
          x.location = (LineIndex.ofText source).clamped m.node ∧
          (m.Inside → (m.node.text? source).isSome → x.Confined))) ∧
      ∀ options,
        (∀ g, Generation.ofSource options source = .ok g →
          ∀ d ∈ g.diagnostics, Generation.TellsNoLeak d.message) ∧
        ∀ message made, Generation.ofSource options source = .error (.invariant message made) →
          Generation.TellsNoLeak message := by
  intro w
  have hw : w = ⟨source, source, Mutation.mutants source 0 before,
      before.filterMap (Mutation.refusal? source)⟩ := performAll_ofSource source before
  have hsource : w.source = source := by rw [hw]
  have hstep := perform_untouched m (show w.working = w.source by rw [hw])
  refine ⟨⟨hsource, by rw [hw], by rw [hstep, hw]⟩, ⟨?_, ?_, ?_, by rw [hw]⟩, ?_, ?_,
    fun options => Generation.ofSource_tellsNoLeak options source⟩
  · rw [hw]
    exact Mutation.ids_mutants source 0 before
  · rw [hw]
    exact Mutation.programs_mutants source 0 before
  · intro x hx
    rw [hw] at hx
    obtain ⟨m', -, text, hc, hx⟩ := Mutation.exists_of_mem_mutants hx
    rw [hx]
    exact ⟨rfl, (Mutation.changed?_eq_some_iff.mp hc).1⟩
  · intro e he
    rw [hstep]
    simp [Mutation.mutants, Mutation.changed?, Mutation.refusal?, hsource, he]
  · intro text q happly
    constructor
    · intro ht
      rw [hstep]
      simp only [Mutation.mutants, Mutation.changed?, Mutation.refusal?, hsource, happly, ht,
        ↓reduceIte, List.append_nil, Option.toList_none]
      rw [← hsource]
    · intro ht
      refine ⟨Mutation.mutant source (w.mutants.length + 1) m text, ?_, rfl, rfl, rfl, rfl, rfl,
        fun hi hn => Mutation.confined_mutant happly hi hn⟩
      rw [hstep]
      simp [Mutation.mutants, Mutation.changed?, Mutation.refusal?, hsource, happly, ht]

end Workbench

end Adequacy
