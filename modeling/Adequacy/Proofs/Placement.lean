import Adequacy.Proofs.Fitting

namespace Adequacy

namespace Node

/-- Whether the comments behind the bases of a chain's optional links are plain. -/
def plainChain (source : String) : Node → Bool
  | .chainMember _ optional base _ | .chainCall _ optional base _ =>
    (!optional || Token.plainBehind source.toList base.span.stop) && base.plainChain source
  | .member _ base _ | .call _ base _ => base.plainChain source
  | _ => true

/-- Whether the comments are plain where the mutations of a node look up its tokens. A loop without
a first part must also begin with its word. -/
def plainLookups (source : String) (n : Node) : Bool :=
  match n with
  | .assign _ op target _ =>
    (Catalog.assignment.lookup op).isEmpty || Token.plainBehind source.toList target.span.stop
  | .binary _ op left _ =>
    (Catalog.binary? op).isNone || Token.plainBehind source.toList left.span.stop
  | .logical _ _ left _ => Token.plainBehind source.toList left.span.stop
  | .chainMember .. | .chainCall .. => n.plainChain source
  | .template _ _ values => values.all fun v => Token.plainBehind source.toList v.span.stop
  | .forLoop _ (some init) none _ _ => Token.plainBehind source.toList init.span.stop
  | .forLoop span none none _ _ =>
    slice? source span.start (span.start + 3) == some "for" &&
      Token.plainBehind source.toList (span.start + 3) &&
      (Token.find? source (span.start + 3) "(").all fun paren =>
        Token.plainBehind source.toList paren.stop
  | _ => true

end Node

namespace Catalog

theorem exists_of_lookup_ne_nil {c : Catalog} {op : String} (h : c.lookup op ≠ []) :
    ∃ p ∈ c, p.1 = op := by
  unfold lookup at h
  cases hf : c.find? (·.1 = op) with
  | none => simp [hf] at h
  | some p => exact ⟨p, List.mem_of_find?_eq_some hf, by simpa using List.find?_some hf⟩

theorem isSought_of_lookup {op : String} (h : assignment.lookup op ≠ []) :
    Token.isSought op = true := by
  obtain ⟨p, hp, rfl⟩ := exists_of_lookup_ne_nil h
  have hall : ∀ p ∈ assignment, Token.isSought p.1 = true := by decide
  exact hall p hp

theorem isSought_of_binary? {op : String} {r : MutantKind × List String} (h : binary? op = some r) :
    Token.isSought op = true := by
  have hall : ∀ c ∈ [arithmetic, equality, logical], ∀ p ∈ c, Token.isSought p.1 = true := by decide
  obtain ⟨c, hc, hne⟩ : ∃ c ∈ [arithmetic, equality, logical], c.lookup op ≠ [] := by
    have hmem := List.mem_of_find?_eq_some h
    have hne : r.2 ≠ [] := by simpa using List.find?_some h
    simp only [List.map_cons, List.map_nil, List.mem_cons, List.not_mem_nil, or_false] at hmem
    rcases hmem with rfl | rfl | rfl
    · exact ⟨arithmetic, by simp, hne⟩
    · exact ⟨equality, by simp, hne⟩
    · exact ⟨logical, by simp, hne⟩
  obtain ⟨p, hp, rfl⟩ := exists_of_lookup_ne_nil hne
  exact hall c hc p hp

theorem utf8ByteSize_of_unary {op : String} (h : unary.lookup op ≠ []) : op.utf8ByteSize = 1 := by
  obtain ⟨p, hp, rfl⟩ := exists_of_lookup_ne_nil h
  have hall : ∀ p ∈ unary, p.1.utf8ByteSize = 1 := by decide
  exact hall p hp

theorem utf8ByteSize_of_update {op : String} (h : update.lookup op ≠ []) :
    op.utf8ByteSize = 2 := by
  obtain ⟨p, hp, rfl⟩ := exists_of_lookup_ne_nil h
  have hall : ∀ p ∈ update, p.1.utf8ByteSize = 2 := by decide
  exact hall p hp

end Catalog

namespace Mutation

/-- The mutation is one of a node with the span. Its edits split no character, and they fit in the
span if a condition holds. -/
structure FitsAt (source : String) (plain : Prop) (node : Span) (m : Mutation) : Prop where
  node_eq : m.node = node
  edit_in : ∀ e ∈ m.patch, e.span.In source.toList
  fits (h : plain) : m.patch.FitsIn source.toList node

variable {source : String} {plain : Prop} {node target : Span} {kind : MutantKind} {test : Node}
  {m : Mutation}

theorem fitsAt_single {new : String} (hin : target.In source.toList)
    (h : plain → node.start ≤ target.start ∧ target.stop ≤ node.stop) :
    FitsAt source plain node ⟨kind, node, [⟨target, new⟩]⟩ :=
  ⟨rfl, by simpa using hin, fun hp => .single hin (h hp).1 (h hp).2⟩

theorem fitsAt_replace {new : String} (hin : target.In source.toList)
    (h : plain → node.start ≤ target.start ∧ target.stop ≤ node.stop) :
    FitsAt source plain node (replace source kind node target new) := fitsAt_single hin h

theorem fitsAt_whole {new : String} (hn : node.In source.toList) :
    FitsAt source plain node ⟨kind, node, [⟨node, new⟩]⟩ :=
  fitsAt_single hn fun _ => ⟨Nat.le_refl _, Nat.le_refl _⟩

theorem fitsAt_clear {isEmpty : Bool} {empty : String} (hin : target.In source.toList)
    (hs : node.start ≤ target.start) (ht : target.stop ≤ node.stop)
    (hm : m ∈ if isEmpty then [] else [clear kind node target empty]) :
    FitsAt source plain node m := by
  split at hm
  next => cases hm
  next =>
    cases List.mem_singleton.mp hm
    exact fitsAt_single hin fun _ => ⟨hs, ht⟩

theorem fitsAt_condition (ht : test.LaidIn source.toList node.start node.stop)
    (hm : m ∈ condition source node test) : FitsAt source plain node m := by
  have hfits (new : String) : FitsAt source plain node (replace source .cond node test.span new) :=
    fitsAt_replace ht.laid.here.span_in fun _ => ⟨ht.start_le, ht.le_stop⟩
  unfold condition at hm
  split at hm
  next b _ =>
    cases List.mem_singleton.mp hm
    exact hfits _
  next =>
    simp only [List.mem_cons, List.not_mem_nil, or_false] at hm
    rcases hm with rfl | rfl <;> exact hfits _

theorem fitsAt_loopCondition (ht : test.LaidIn source.toList node.start node.stop)
    (hm : m ∈ loopCondition source node test) : FitsAt source plain node m := by
  unfold loopCondition at hm
  split at hm
  next => cases hm
  next =>
    cases List.mem_singleton.mp hm
    exact fitsAt_replace ht.laid.here.span_in fun _ => ⟨ht.start_le, ht.le_stop⟩

section logical

theorem fitsIn_insert {offset : Nat} {new : String} (hb : isBoundary offset source.toList = true) :
    Patch.FitsIn source.toList (.point offset) [Edit.insert offset new] :=
  .single ⟨hb, hb, Nat.le_refl _⟩ (Nat.le_refl _) (Nat.le_refl _)

theorem fitsIn_operandParens (outer : LogicalOp) {operand : Node}
    (h : operand.span.In source.toList) :
    Patch.FitsIn source.toList operand.span (operandParens outer operand) := by
  have hparens : Patch.FitsIn source.toList operand.span
      ([Edit.insert operand.span.start "("] ++ [Edit.insert operand.span.stop ")"]) :=
    (fitsIn_insert h.start_isBoundary).append (fitsIn_insert h.stop_isBoundary)
      (.inl h.start_le_stop) ⟨Nat.le_refl _, h.start_le_stop⟩ ⟨h.start_le_stop, Nat.le_refl _⟩
  unfold operandParens
  split
  next =>
    split
    next => exact hparens
    next => exact .nil
  next => exact .nil

theorem fitsIn_wrap {offset : Nat} {new : String} {wraps : Bool}
    (hb : isBoundary offset source.toList = true) :
    Patch.FitsIn source.toList ⟨offset, offset⟩ (if wraps then [Edit.insert offset new] else []) := by
  split
  · exact fitsIn_insert hb
  · exact .nil

variable {left right : Node} {parent : Option LogicalOp}

theorem in_regroup {token : Edit} {op : LogicalOp} (hn : node.In source.toList)
    (hl : left.span.In source.toList) (hr : right.span.In source.toList)
    (ht : token.span.In source.toList) :
    ∀ e ∈ regroup parent node left right token op, e.span.In source.toList := by
  simp only [regroup, List.forall_mem_append, List.forall_mem_singleton]
  exact ⟨⟨⟨⟨(fitsIn_wrap hn.start_isBoundary).edit_in, (fitsIn_operandParens op hl).edit_in⟩, ht⟩,
    (fitsIn_operandParens op hr).edit_in⟩, (fitsIn_wrap hn.stop_isBoundary).edit_in⟩

/-- The parentheses and the operator of a logical expression do not overlap. -/
theorem fitsIn_regroup {token : Edit} {op : LogicalOp} (hn : node.In source.toList)
    (hl : left.LaidIn source.toList node.start node.stop)
    (hr : right.LaidIn source.toList node.start node.stop) (ht : token.span.In source.toList)
    (hlt : left.span.stop ≤ token.span.start) (htr : token.span.stop ≤ right.span.start) :
    Patch.FitsIn source.toList node (regroup parent node left right token op) := by
  have hleft := hl.laid.here.span_in
  have hright := hr.laid.here.span_in
  have h1 := hl.start_le
  have h2 := hleft.start_le_stop
  have h3 := ht.start_le_stop
  have h4 := hright.start_le_stop
  have h5 := hr.le_stop
  have htoken : Patch.FitsIn source.toList token.span [token] :=
    .single ht (Nat.le_refl _) (Nat.le_refl _)
  have hopen : Patch.FitsIn source.toList ⟨node.start, node.start⟩
      (if parent.any (needsParens op) then [Edit.insert node.start "("] else []) :=
    fitsIn_wrap hn.start_isBoundary
  have hclose : Patch.FitsIn source.toList ⟨node.stop, node.stop⟩
      (if parent.any (needsParens op) then [Edit.insert node.stop ")"] else []) :=
    fitsIn_wrap hn.stop_isBoundary
  have huptoLeft := hopen.extend (fitsIn_operandParens op hleft) (Nat.le_refl _) h1 h2
  have huptoToken := huptoLeft.extend htoken (by omega) hlt h3
  have huptoRight := huptoToken.extend (fitsIn_operandParens op hright) (by omega) htr h4
  have hall := huptoRight.extend hclose (by omega) h5 (Nat.le_refl _)
  exact hall

/-- Every replacement of an operator fits between the operands. -/
theorem fitsAt_operator {op : String} {stop : Nat} (hn : node.In source.toList)
    (hl : left.LaidIn source.toList node.start node.stop)
    (hr : right.LaidIn source.toList node.start node.stop)
    (hop : Behind source.toList left.span.stop op stop) (hstop : stop ≤ right.span.start)
    (hp : plain → (Catalog.binary? op).isNone || Token.plainBehind source.toList left.span.stop)
    (hm : m ∈ operator source parent node op left right) : FitsAt source plain node m := by
  unfold operator at hm
  split at hm
  next found replacements token hfound htoken =>
    rw [hfound] at hp
    obtain ⟨hin, hstart, -⟩ := Token.find?_reads htoken
    have hle (h : plain) : token.stop ≤ right.span.start :=
      (Token.stop_le_of_find? hop (hp h) (Catalog.isSought_of_binary? hfound) htoken).trans hstop
    have hleft := hl.laid.here.span_in
    have hright := hr.laid.here.span_in
    obtain ⟨new, -, rfl⟩ := List.mem_map.mp hm
    dsimp only
    split
    next =>
      exact ⟨rfl, in_regroup hn hleft hright hin, fun h => fitsIn_regroup hn hl hr hin hstart (hle h)⟩
    next =>
      refine fitsAt_single hin fun h => ⟨(hl.start_le.trans hleft.start_le_stop).trans hstart, ?_⟩
      exact (hle h).trans (hright.start_le_stop.trans hr.le_stop)
  next => cases hm

end logical

theorem fitsAt_assign {op : String} {goal : Node} {stop : Nat}
    (hg : goal.LaidIn source.toList node.start node.stop)
    (hop : Behind source.toList goal.span.stop op stop) (hstop : stop ≤ node.stop)
    (hp : plain → (Catalog.assignment.lookup op).isEmpty ||
      Token.plainBehind source.toList goal.span.stop)
    (hm : m ∈ match Token.find? source goal.span.stop op with
      | some token =>
        (Catalog.assignment.lookup op).map (replace source .assignExpr node token)
      | none => []) : FitsAt source plain node m := by
  split at hm
  next token htoken =>
    obtain ⟨new, hnew, rfl⟩ := List.mem_map.mp hm
    have hne := List.ne_nil_of_mem hnew
    obtain ⟨hin, hstart, -⟩ := Token.find?_reads htoken
    refine fitsAt_replace hin fun h => ⟨?_, ?_⟩
    · exact (hg.start_le.trans hg.laid.here.span_in.start_le_stop).trans hstart
    · have hplain : Token.plainBehind source.toList goal.span.stop = true := by
        simpa [hne] using hp h
      exact (Token.stop_le_of_find? hop hplain (Catalog.isSought_of_lookup hne) htoken).trans hstop
  next => cases hm

section chains

theorem fitsIn_mandatory {optional : Bool} {base : Node} {new : String} {hi : Nat}
    (h : optional = true → ∃ stop, Behind source.toList base.span.stop "?" stop ∧ stop + 1 ≤ hi)
    (hp : (!optional || Token.plainBehind source.toList base.span.stop) = true) :
    Patch.FitsIn source.toList ⟨base.span.stop, hi⟩ (mandatory source optional base new) := by
  unfold mandatory
  split
  next ho =>
    split
    next token htoken =>
      obtain ⟨stop, hb, hroom⟩ := h ho
      obtain ⟨hin, hstart, hstop⟩ := Token.find?_reads htoken
      have hplain : Token.plainBehind source.toList base.span.stop = true := by simpa [ho] using hp
      refine .single hin hstart ?_
      have hsize : "?.".utf8ByteSize = 2 := by decide
      have hsize' : "?".utf8ByteSize = 1 := by decide
      dsimp only
      rcases Token.find?_behind hb hplain (by decide) (by decide) htoken with hat | ⟨-, hle⟩ <;>
        omega
    next => exact .nil
  next => exact .nil

/-- The edit of a link stands behind those of the links in its base. -/
theorem fitsIn_link {n base : Node} {optional : Bool} {new : String}
    (hb : base.LaidIn source.toList n.span.start n.span.stop)
    (hmark : optional = true →
      ∃ stop, Behind source.toList base.span.stop "?" stop ∧ stop + 1 ≤ n.span.stop)
    (hp : (!optional || Token.plainBehind source.toList base.span.stop) = true)
    (hc : Patch.FitsIn source.toList base.span (chainPatch source base)) :
    Patch.FitsIn source.toList n.span
      (mandatory source optional base new ++ chainPatch source base) :=
  (fitsIn_mandatory hmark hp).append hc (.inr (Nat.le_refl _))
    ⟨hb.start_le.trans hb.laid.here.span_in.start_le_stop, Nat.le_refl _⟩ ⟨hb.start_le, hb.le_stop⟩

/-- The links of a chain are edited one behind the other, the last of them first. -/
theorem fitsIn_chainPatch (n : Node) (h : n.Everywhere (Node.Laid source.toList))
    (hp : n.plainChain source = true) :
    Patch.FitsIn source.toList n.span (chainPatch source n) := by
  fun_induction chainPatch source n with
  | case1 span optional base index ih =>
    rw [Node.plainChain, Bool.and_eq_true] at hp
    have hb := Node.allLaidIn_children h rfl base List.mem_cons_self
    exact fitsIn_link hb (fun ho => by subst ho; exact h.here.shaped) hp.1 (ih hb.laid hp.2)
  | case2 span optional base args ih =>
    rw [Node.plainChain, Bool.and_eq_true] at hp
    have hb := Node.allLaidIn_children h rfl base List.mem_cons_self
    exact fitsIn_link hb (fun ho => by subst ho; exact h.here.shaped) hp.1 (ih hb.laid hp.2)
  | case3 span base index ih =>
    have hb := Node.allLaidIn_children h rfl base List.mem_cons_self
    exact (ih hb.laid hp).mono hb.start_le hb.le_stop
  | case4 span callee args ih =>
    have hb := Node.allLaidIn_children h rfl callee List.mem_cons_self
    exact (ih hb.laid hp).mono hb.start_le hb.le_stop
  | case5 => exact .nil

theorem in_mandatory {optional : Bool} {base : Node} {new : String} :
    ∀ e ∈ mandatory source optional base new, e.span.In source.toList := by
  unfold mandatory
  split
  next =>
    split
    next token htoken => simpa using (Token.find?_reads htoken).1
    next => simp
  next => simp

theorem in_chainPatch (n : Node) : ∀ e ∈ chainPatch source n, e.span.In source.toList := by
  fun_induction chainPatch source n with
  | case1 span optional base index ih => exact List.forall_mem_append.mpr ⟨in_mandatory, ih⟩
  | case2 span optional base args ih => exact List.forall_mem_append.mpr ⟨in_mandatory, ih⟩
  | case3 span base index ih => exact ih
  | case4 span callee args ih => exact ih
  | case5 => simp

theorem fitsAt_chain {n : Node} {s : Standing} (h : n.Everywhere (Node.Laid source.toList))
    (hp : plain → n.plainChain source = true) (hm : m ∈ let patch := chainPatch source n
      if s.onChain || patch.isEmpty then [] else [⟨.optionalChain, n.span, patch⟩]) :
    FitsAt source plain n.span m := by
  dsimp only at hm
  split at hm
  next => cases hm
  next =>
    cases List.mem_singleton.mp hm
    exact ⟨rfl, in_chainPatch n, fun hplain => fitsIn_chainPatch n h (hp hplain)⟩

end chains

section templates

theorem segment_in {start size : Nat} {mark : String} {stop : Nat}
    (hb : isBoundary start source.toList = true)
    (h : slice? source (start + size) stop = some mark) :
    Span.In source.toList ⟨start, start + size⟩ := by
  obtain ⟨as, bs, htext, hsize, -⟩ := slice?_eq_some_iff.mp h
  refine ⟨hb, isBoundary_iff.mpr ⟨as, mark.toList ++ bs, ?_, hsize⟩, Nat.le_add_right _ _⟩
  rw [htext, List.append_assoc]

theorem in_segments {start : Nat} {texts : List String} {values : List Node} {spans : List Span}
    (hb : isBoundary start source.toList = true)
    (h : segments? source start texts values = some spans) : ∀ s ∈ spans, s.In source.toList := by
  induction texts generalizing start values spans with
  | nil =>
    cases h
    simp
  | cons raw later ih =>
    simp [segments?] at h
    obtain ⟨hslice, h⟩ := h
    split at h
    next =>
      cases h
      simpa using segment_in hb hslice
    next =>
      obtain ⟨value, -, h⟩ := Option.bind_eq_some_iff.mp h
      obtain ⟨token, htoken, h⟩ := Option.bind_eq_some_iff.mp h
      obtain ⟨rest, hrest, h⟩ := Option.bind_eq_some_iff.mp h
      cases h
      rw [List.forall_mem_cons]
      exact ⟨segment_in hb hslice, ih (Token.find?_reads htoken).1.stop_isBoundary hrest⟩

/-- The segments of a template that are found lie between its ends. -/
theorem segments_within {start start' lo hi : Nat} {texts : List String} {values : List Node}
    {spans : List Span} (hs : Segments source.toList start' texts values hi)
    (hv : Node.AllLaidIn source.toList lo hi values)
    (hp : ∀ v ∈ values, Token.plainBehind source.toList v.span.stop = true)
    (hlo : lo ≤ start) (hle : start ≤ start')
    (h : segments? source start texts values = some spans) :
    ∀ s ∈ spans, lo ≤ s.start ∧ s.stop ≤ hi := by
  induction hs generalizing start spans with
  | last _ hroom =>
    simp [segments?] at h
    obtain ⟨-, rfl⟩ := h
    rw [List.forall_mem_singleton]
    exact ⟨hlo, by dsimp only; omega⟩
  | @more start' hi brace raw later value values _ hroom hbrace hl ih =>
    simp [segments?] at h
    rw [Node.allLaidIn_cons] at hv
    rw [List.forall_mem_cons] at hp
    have h1 := hv.1.start_le
    have h2 := hv.1.laid.here.span_in.start_le_stop
    have h3 := hv.1.le_stop
    have hfirst : lo ≤ start ∧ start + raw.utf8ByteSize ≤ hi := ⟨hlo, by omega⟩
    replace h := h.2
    split at h
    next =>
      cases h
      rw [List.forall_mem_singleton]
      exact hfirst
    next =>
      obtain ⟨token, htoken, h⟩ := Option.bind_eq_some_iff.mp h
      obtain ⟨rest, hrest, h⟩ := Option.bind_eq_some_iff.mp h
      cases h
      obtain ⟨hin, hstart, -⟩ := Token.find?_reads htoken
      have hstop := Token.stop_le_of_find? hbrace hp.1 (by decide) htoken
      have h4 := hin.start_le_stop
      rw [List.forall_mem_cons]
      exact ⟨hfirst, ih hv.2 hp.2 (by omega) hstop hrest⟩

/-- Each mutation of a template fits in it. -/
theorem fitsAt_template {texts : List String} {values : List Node} (hn : node.In source.toList)
    (hv : Node.AllLaidIn source.toList node.start node.stop values)
    (hb : isBoundary (node.start + 1) source.toList = true)
    (hs : Segments source.toList (node.start + 1) texts values node.stop)
    (hp : plain → ∀ v ∈ values, Token.plainBehind source.toList v.span.stop = true)
    (hm : m ∈ template source node texts values) : FitsAt source plain node m := by
  unfold template at hm
  split at hm
  next => cases hm
  next spans hspans =>
    have hsingle (s : Span) (new : String) (hmem : s ∈ spans) :
        FitsAt source plain node ⟨.stringLiteral, node, [⟨s, new⟩]⟩ :=
      fitsAt_single (in_segments hb hspans s hmem) fun h =>
        segments_within hs hv (hp h) (Nat.le_add_right _ _) (Nat.le_refl _) hspans s hmem
    split at hm
    next =>
      obtain ⟨s, hs, rfl⟩ := List.mem_map.mp hm
      exact hsingle s _ (List.mem_of_head? (Option.mem_toList.mp hs))
    next =>
      rcases List.mem_append.mp hm with hm | hm
      · obtain ⟨s, hs, rfl⟩ := List.mem_map.mp hm
        exact hsingle s _ (List.mem_of_mem_filter hs)
      · split at hm
        next => cases hm
        next =>
          cases List.mem_singleton.mp hm
          exact fitsAt_whole hn

end templates

theorem fitsAt_literal {value : Literal} (hn : node.In source.toList)
    (hm : m ∈ literal source node value) : FitsAt source plain node m := by
  cases value <;> simp only [literal, List.mem_cons, List.not_mem_nil, or_false] at hm
  all_goals
    subst hm
    exact fitsAt_whole hn

theorem fitsAt_unary {op : String} (hn : node.In source.toList)
    (hop : op.utf8ByteSize ≤ 2 → isBoundary (node.start + op.utf8ByteSize) source.toList = true ∧
      node.start + op.utf8ByteSize ≤ node.stop)
    (hm : m ∈ unary source node op) : FitsAt source plain node m := by
  obtain ⟨new, hnew, rfl⟩ := List.mem_map.mp hm
  have hsize := Catalog.utf8ByteSize_of_unary (List.ne_nil_of_mem hnew)
  obtain ⟨hb, hle⟩ := hop (by omega)
  exact fitsAt_replace ⟨hn.start_isBoundary, hb, Nat.le_add_right _ _⟩
    fun _ => ⟨Nat.le_refl _, hle⟩

theorem fitsAt_update {op : String} {isFirst : Bool} {operand : Node} (hn : node.In source.toList)
    (hop : (Node.update node op isFirst operand).Shaped source.toList)
    (hm : m ∈ update source node op isFirst operand) : FitsAt source plain node m := by
  rcases List.mem_cons.mp hm with rfl | hm
  · exact fitsAt_whole hn
  · obtain ⟨new, hnew, rfl⟩ := List.mem_map.mp hm
    have hsize := Catalog.utf8ByteSize_of_update (List.ne_nil_of_mem hnew)
    cases isFirst with
    | true =>
      obtain ⟨hb, hle⟩ := hop (by omega)
      exact fitsAt_replace ⟨hn.start_isBoundary, hb, Nat.le_add_right _ _⟩
        fun _ => ⟨Nat.le_refl _, hle⟩
    | false =>
      obtain ⟨hb, hle⟩ := hop
      exact fitsAt_replace ⟨hb, hn.stop_isBoundary, Nat.sub_le _ _⟩
        fun _ => ⟨Nat.le_sub_of_add_le hle, Nat.le_refl _⟩

section loops

theorem readsAt_of_slice? {start stop : Nat} {word : String}
    (h : slice? source start stop = some word) : ReadsAt source.toList start word.toList := by
  obtain ⟨as, bs, htext, hsize, -⟩ := slice?_eq_some_iff.mp h
  exact ⟨as, bs, by rw [htext, List.append_assoc], hsize⟩

/-- A semicolon behind an offset in the loop is in the loop. -/
theorem semicolon_within {after semi : Nat} {token : Span}
    (hb : Behind source.toList after ";" semi) (hp : Token.plainBehind source.toList after = true)
    (hlo : node.start ≤ after) (hhi : semi ≤ node.stop)
    (h : Token.find? source after ";" = some token) :
    node.start ≤ token.stop ∧ token.stop ≤ node.stop := by
  obtain ⟨hin, hstart, -⟩ := Token.find?_reads h
  have hle := hin.start_le_stop
  have hstop := Token.stop_le_of_find? hb hp (by decide) h
  omega

/-- The place of a test that a loop lacks is in the loop. -/
theorem missingTest_within {init step : Option Node} {body : Node} {paren token : Span}
    (hin : ∀ n ∈ init, n.LaidIn source.toList node.start node.stop)
    (hs : (Node.forLoop node init none step body).Shaped source.toList)
    (hp : (Node.forLoop node init none step body).plainLookups source = true)
    (hparen : Token.find? source (node.start + 3) "(" = some paren)
    (htoken : Token.find? source (init.elim paren.stop (·.span.stop)) ";" = some token) :
    node.start ≤ token.stop ∧ token.stop ≤ node.stop := by
  obtain ⟨stop, semi, hopen, hb, hhi⟩ := hs
  cases init with
  | some first =>
    have hfirst := hin first rfl
    have hlo := hfirst.start_le.trans hfirst.laid.here.span_in.start_le_stop
    exact semicolon_within hb hp hlo hhi htoken
  | none =>
    simp only [Node.plainLookups, hparen, Option.all_some, Bool.and_eq_true, beq_iff_eq] at hp
    obtain ⟨⟨hword, hgap⟩, hgap'⟩ := hp
    obtain ⟨-, hstart, hend⟩ := Token.find?_reads hparen
    have hsize : "(".utf8ByteSize = 1 := by decide
    have hstop : paren.stop = stop := by
      rcases Token.find?_behind (hopen (readsAt_of_slice? hword)) hgap (by decide) (by decide) hparen
        with hat | ⟨hold, -⟩
      · omega
      · exact absurd hold (by decide)
    exact semicolon_within (hstop ▸ hb) hgap' (by omega) hhi htoken

theorem fitsAt_missingTest {init step : Option Node} {body : Node} {place : Nat}
    (hin : ∀ n ∈ init, n.LaidIn source.toList node.start node.stop)
    (hs : (Node.forLoop node init none step body).Shaped source.toList)
    (hp : plain → (Node.forLoop node init none step body).plainLookups source = true)
    (h : missingTest? source node init = some place) :
    FitsAt source plain node ⟨.cond, node, [Edit.insert place "false"]⟩ := by
  obtain ⟨paren, hparen, h⟩ := Option.bind_eq_some_iff.mp h
  obtain ⟨token, htoken, h⟩ := Option.bind_eq_some_iff.mp h
  cases h
  have hb := (Token.find?_reads htoken).1.stop_isBoundary
  refine fitsAt_single ⟨hb, hb, Nat.le_refl _⟩ fun hplain => ?_
  cases init with
  | some first => exact missingTest_within hin hs (hp hplain) hparen htoken
  | none => exact missingTest_within hin hs (hp hplain) hparen htoken

end loops

/-- No mutation of a node that is laid out splits a character. Each fits in the node, if the tokens
of that are looked up behind plain comments. -/
theorem fitsAt_ofNode {s : Standing} {n : Node} (h : n.Everywhere (Node.Laid source.toList))
    (hm : m ∈ ofNode source s n) : FitsAt source (n.plainLookups source = true) n.span m := by
  have hn := h.here.span_in
  have hshape := h.here.shaped
  have hpart (ha : n.isArrow = false) := Node.allLaidIn_children h ha
  unfold ofNode at hm
  split at hm
  next span elements => exact fitsAt_clear hn (Nat.le_refl _) (Nat.le_refl _) hm
  next span members => exact fitsAt_clear hn (Nat.le_refl _) (Nat.le_refl _) hm
  next span body => exact fitsAt_clear hn (Nat.le_refl _) (Nat.le_refl _) hm
  next span callee args =>
    have hcallee := hpart rfl callee List.mem_cons_self
    have hin := hcallee.laid.here.span_in
    have hplace : Span.In source.toList ⟨callee.span.stop, span.stop⟩ :=
      ⟨hin.stop_isBoundary, hn.stop_isBoundary, hcallee.le_stop⟩
    exact fitsAt_clear hplace (hcallee.start_le.trans hin.start_le_stop) (Nat.le_refl _) hm
  next span op goal value =>
    obtain ⟨stop, hop, hstop⟩ := hshape
    exact fitsAt_assign (hpart rfl goal List.mem_cons_self) hop hstop id hm
  next span op left right =>
    obtain ⟨stop, hop, hstop⟩ := hshape
    exact fitsAt_operator hn (hpart rfl left (by simp [Node.children]))
      (hpart rfl right (by simp [Node.children])) hop hstop id hm
  next span op left right =>
    obtain ⟨stop, hop, hstop⟩ := hshape
    exact fitsAt_operator hn (hpart rfl left (by simp [Node.children]))
      (hpart rfl right (by simp [Node.children])) hop hstop (fun hp => Bool.or_eq_true_iff.mpr (.inr hp)) hm
  next span optional base index => exact fitsAt_chain h id hm
  next span optional base args => exact fitsAt_chain h id hm
  next span test yes no => exact fitsAt_condition (hpart rfl test (by simp [Node.children])) hm
  next span test yes no => exact fitsAt_condition (hpart rfl test (by simp [Node.children])) hm
  next span test body => exact fitsAt_loopCondition (hpart rfl test (by simp [Node.children])) hm
  next span body test => exact fitsAt_loopCondition (hpart rfl test (by simp [Node.children])) hm
  next span init test step body =>
    exact fitsAt_loopCondition (hpart rfl test (by simp [Node.children])) hm
  next span init step body =>
    obtain ⟨place, hplace, rfl⟩ := List.mem_map.mp hm
    refine fitsAt_missingTest (fun n hn => hpart rfl n ?_) hshape id (Option.mem_toList.mp hplace)
    simp [Node.children, Option.mem_def.mp hn]
  next span value => exact fitsAt_literal hn hm
  next span texts values =>
    exact fitsAt_template hn (hpart rfl) hshape.1 hshape.2 List.all_eq_true.mp hm
  next span op operand => exact fitsAt_unary hn hshape hm
  next span op isFirst operand => exact fitsAt_update hn hshape hm
  next => cases hm

end Mutation

end Adequacy
