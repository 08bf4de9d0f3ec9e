import Adequacy.Proofs.Confinement
import Adequacy.Proofs.Occurrences

namespace Adequacy

namespace Mutation

variable {source : String} {s : Standing} {n : Node} {m : Mutation}

theorem node_of_mem_clear {isEmpty : Bool} {kind : MutantKind} {node target : Span} {empty : String}
    (h : m ∈ if isEmpty then [] else [clear kind node target empty]) : m.node = node := by
  split at h
  · cases h
  · cases List.mem_singleton.mp h
    rfl

theorem node_of_mem_replacements {kind : MutantKind} {node target : Span} {texts : List String}
    (h : m ∈ texts.map (replace source kind node target)) : m.node = node := by
  obtain ⟨text, -, rfl⟩ := List.mem_map.mp h
  rfl

theorem node_of_mem_condition {node : Span} {test : Node} (h : m ∈ condition source node test) :
    m.node = node := by
  unfold condition at h
  split at h <;> simp only [List.mem_cons, List.not_mem_nil, or_false] at h
  · rw [h]
    rfl
  · rcases h with rfl | rfl <;> rfl

theorem node_of_mem_loopCondition {node : Span} {test : Node}
    (h : m ∈ loopCondition source node test) : m.node = node := by
  unfold loopCondition at h
  split at h
  · cases h
  · cases List.mem_singleton.mp h
    rfl

theorem node_of_mem_operator {parent : Option LogicalOp} {node : Span} {op : String}
    {left right : Node} (h : m ∈ operator source parent node op left right) : m.node = node := by
  unfold operator at h
  split at h
  · obtain ⟨text, -, rfl⟩ := List.mem_map.mp h
    dsimp only
    split <;> rfl
  · cases h

theorem node_of_mem_template {node : Span} {texts : List String} {values : List Node}
    (h : m ∈ template source node texts values) : m.node = node := by
  unfold template at h
  split at h
  · cases h
  · split at h
    · obtain ⟨_, -, rfl⟩ := List.mem_map.mp h
      rfl
    · rcases List.mem_append.mp h with h | h
      · obtain ⟨_, -, rfl⟩ := List.mem_map.mp h
        rfl
      · split at h
        · cases h
        · cases List.mem_singleton.mp h
          rfl

theorem node_of_mem_literal {span : Span} {value : Literal} (h : m ∈ literal source span value) :
    m.node = span := by
  unfold literal at h
  split at h
  · cases List.mem_singleton.mp h
    rfl
  · cases List.mem_singleton.mp h
    rfl
  · cases List.mem_singleton.mp h
    rfl
  · cases List.mem_singleton.mp h
    rfl
  · cases h

/-- A mutation is reported at the node that it comes of. -/
theorem node_of_mem_ofNode (h : m ∈ ofNode source s n) : m.node = n.span := by
  cases n with
  | array | object | block | construct => exact node_of_mem_clear h
  | assign =>
    simp only [ofNode] at h
    split at h
    · exact node_of_mem_replacements h
    · cases h
  | binary | logical => exact node_of_mem_operator h
  | chainMember | chainCall =>
    simp only [ofNode] at h
    split at h
    · cases h
    · cases List.mem_singleton.mp h
      rfl
  | conditional | ifElse => exact node_of_mem_condition h
  | whileLoop | doWhile => exact node_of_mem_loopCondition h
  | forLoop span init test =>
    cases test with
    | some test => exact node_of_mem_loopCondition h
    | none =>
      obtain ⟨place, -, rfl⟩ := List.mem_map.mp h
      rfl
  | literal => exact node_of_mem_literal h
  | template => exact node_of_mem_template h
  | unary => exact node_of_mem_replacements h
  | update =>
    rcases List.mem_cons.mp h with rfl | h
    · rfl
    · exact node_of_mem_replacements h
  | _ => cases h

end Mutation

namespace Node

variable {n c : Node} {assertion : String} {s : Standing} {v : Standing × Node} {path : List Nat}

/-- A node that is visited and can be mutated is shown from wherever the visits began. -/
theorem shows_of_mem_visits (hv : v ∈ n.visits assertion s) (hm : v.2.isMutable = true) :
    n.Shows assertion .mutated v.2.span := by
  induction n using Node.induct generalizing s with
  | step n ih =>
    cases hcall : n.isCallOf assertion with
    | true =>
      rw [visits, hcall] at hv
      cases hv
    | false =>
      rw [visits_eq hcall] at hv
      rcases List.mem_cons.mp hv with rfl | hv
      · exact .mutated hm
      · obtain ⟨p, hp, hv⟩ := List.mem_flatMap.mp hv
        have hc := mem_children_of_mem_placed hp
        exact .inChild (fun _ => hcall) hc (ih p.2 hc hv)

/-- A call of the function is shown from the nodes above it, also inside other such calls. -/
theorem shows_of_at? (h : n.at? path = some c) (hc : c.isCallOf assertion = true) :
    n.Shows assertion .skipped c.span := by
  induction path generalizing n with
  | nil =>
    cases h
    exact .skipped hc
  | cons i path ih =>
    obtain ⟨d, hd, h⟩ := Option.bind_eq_some_iff.mp h
    exact .inChild nofun (List.mem_of_getElem? hd) (ih h)

end Node

namespace Program

variable {source assertion : String} {p : Program} {v : Standing × Node} {path : List Nat} {c : Node}

theorem byteSize_bareText_le (source : String) :
    byteSize (bareText source) ≤ source.utf8ByteSize := by
  rw [utf8ByteSize_eq_byteSize]
  unfold bareText
  split
  next rest h =>
    rw [h, byteSize_cons]
    omega
  next => exact Nat.le_refl _

/-- Visited nodes end in the text. -/
theorem stop_le_of_mem_visits (hp : parse source = .ok p) (hv : v ∈ p.visits assertion) :
    v.2.span.stop ≤ source.utf8ByteSize := by
  obtain ⟨n, hn, hv⟩ := List.mem_flatMap.mp hv
  obtain ⟨lo, hi, hall⟩ := allWithin_items hp
  have hin := ((hall.1 n hn).laid.visited hv).here.span_in
  obtain ⟨front, rest, htext, hsize⟩ := isBoundary_iff.mp hin.stop_isBoundary
  have hle := byteSize_bareText_le source
  rw [htext, byteSize_append] at hle
  omega

/-- No call of the function is around a visited node that can be mutated. -/
theorem not_holds_of_mem_visits (hp : parse source = .ok p) (hv : v ∈ p.visits assertion)
    (hm : v.2.isMutable = true) (hpath : p.at? path = some c) (hc : c.isCallOf assertion = true) :
    ¬ c.span.Holds v.2.span := by
  obtain ⟨lo, hi, hall⟩ := allWithin_items hp
  obtain ⟨n, hn, hv⟩ := List.mem_flatMap.mp hv
  cases path with
  | nil => cases hpath
  | cons i path =>
    obtain ⟨m, hm', hpath⟩ := Option.bind_eq_some_iff.mp hpath
    exact hall.kept.spared n hn m (List.mem_of_getElem? hm') (Node.shows_of_mem_visits hv hm)
      (Node.shows_of_at? hpath hc)

end Program

/-- What takes in the range of a span that ends in the text takes in the span. -/
theorem holds_of_clamped {text : String} {outer s : Span} (hs : s.stop ≤ text.utf8ByteSize)
    (h : outer.Holds ((LineIndex.ofText text).clamped s).span) : outer.Holds s := by
  obtain ⟨hstart, hstop⟩ := h
  simp only [SourceRange.span, LineIndex.clamped_eq, LineIndex.position, LineIndex.ofText,
    Nat.min_eq_left hs] at hstart hstop
  exact ⟨hstart.trans (Nat.min_le_left _ _), hstop⟩

namespace Generation

variable {options : MutationOptions} {source : String} {p : Program}

/-- The mutants that were made, also if they were given up in the end. -/
def made : Except GenerationError Generation → List Mutant
  | .ok g => g.mutants
  | .error (.invariant _ mutants) => mutants
  | .error (.parse _) => []

theorem made_ofSource (hp : Program.parse source = .ok p) : made (ofSource options source) =
    Mutation.mutants source 0 (Mutation.ofProgram options.assertion p) := by
  rw [ofSource_of_parse hp]
  dsimp only
  split <;> rfl

/-- Calls of the assertion function are left alone: neither a mutation nor a mutant is placed in the
span of one, wherever it stands and whatever is in it. All other nodes are visited once each and in
pre-order, as the paths to them tell, and every visit leads to the mutations of its own node. The
body of a static block is visited as its statements. -/
theorem spares_assertions (hp : Program.parse source = .ok p) :
    (∀ path call, p.at? path = some call → call.isCallOf options.assertion = true →
      (∀ m ∈ Mutation.ofProgram options.assertion p, ¬ call.span.Holds m.node) ∧
      ∀ x ∈ made (ofSource options source), ¬ call.span.Holds x.location.span) ∧
    (∃ os : List Occurrence,
      os.map (fun o => (o.standing, o.node)) = p.visits options.assertion ∧
      Occurrence.InOrder os ∧
      (∀ path n, (∃ o ∈ os, o.path = path ∧ o.node = n) ↔ p.Leads options.assertion path n) ∧
      Mutation.ofProgram options.assertion p =
        os.flatMap fun o => Mutation.ofNode source o.standing o.node) ∧
    ∀ s span body, Mutation.ofNode source s (.staticBlock span body) = [] ∧
      (Node.staticBlock span body).visits options.assertion s =
        (s, .staticBlock span body) :: body.flatMap (Node.visits options.assertion {}) := by
  refine ⟨fun path call hpath hcall => ?_, ⟨p.visited options.assertion, ?_, p.inOrder_visited,
    fun path n => p.exists_visited_iff, ?_⟩, fun s span body => ⟨rfl, ?_⟩⟩
  · have hspared : ∀ m ∈ Mutation.ofProgram options.assertion p,
        ¬ call.span.Holds m.node ∧ m.node.stop ≤ source.utf8ByteSize := by
      intro m hm
      obtain ⟨v, hv, hm⟩ := (Mutation.mem_ofProgram_iff hp).mp hm
      rw [Mutation.node_of_mem_ofNode hm]
      exact ⟨Program.not_holds_of_mem_visits hp hv (Node.isMutable_of_mem_ofNode hm) hpath hcall,
        Program.stop_le_of_mem_visits hp hv⟩
    refine ⟨fun m hm => (hspared m hm).1, fun x hx => ?_⟩
    rw [made_ofSource hp] at hx
    obtain ⟨m, hm, text, -, hx⟩ := Mutation.exists_of_mem_mutants hx
    obtain ⟨hfree, hstop⟩ := hspared m hm
    rw [hx]
    exact fun hholds => hfree (holds_of_clamped hstop hholds)
  · exact (p.visits_eq_map_visited options.assertion).symm
  · rw [Mutation.ofProgram, p.visits_eq_map_visited, Program.source_of_parse hp, List.flatMap_map]
  · rw [Node.visits_eq rfl]
    simp [Node.placed, Node.children, List.flatMap_map]

/-- An assertion in an array, with a chain in it that would be mutated elsewhere. -/
def asserting : Program :=
  ⟨"[t(a?.b)] && c", false, [.other ⟨0, 14⟩ .expressionStatement
    [.logical ⟨0, 14⟩ .and
      (.array ⟨0, 9⟩ [.call ⟨1, 8⟩ (.name ⟨1, 2⟩ "t")
        [.chainMember ⟨3, 7⟩ true (.name ⟨3, 4⟩ "a") none]])
      (.name ⟨13, 14⟩ "c")]]⟩

set_option maxRecDepth 4000 in
theorem parse_asserting : Program.parse asserting.source = .ok asserting := by
  unfold Program.parse
  cbv

theorem spares_assertions_of_asserting : ∃ call, asserting.at? [0, 0, 0, 0] = some call ∧
    call.isCallOf "t" = true ∧ call.span = ⟨1, 8⟩ ∧
    (asserting.visits "t").map (·.2.span) = [⟨0, 14⟩, ⟨0, 14⟩, ⟨0, 9⟩, ⟨13, 14⟩] ∧
    ∀ x ∈ made (ofSource { assertion := "t" } asserting.source), ¬ call.span.Holds x.location.span :=
  ⟨_, rfl, rfl, rfl, by cbv,
    ((spares_assertions parse_asserting).1 [0, 0, 0, 0] _ rfl rfl).2⟩

end Generation

end Adequacy
