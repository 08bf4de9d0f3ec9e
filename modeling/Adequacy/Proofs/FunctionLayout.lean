import Adequacy.Proofs.PatternLayout

namespace Adequacy

namespace Parser

variable {text : List Char} {c : Surroundings} {s t : Progress} {rule : Productions}

@[grind →] theorem spans_assignment {n : Node} (hr : RulesLay text rule)
    (h : Takes text c s (assignment rule) n t) : n.Spans text s.current.span.start t.last.stop := by
  simp [assignment] at h
  exact hr.assignment h

@[grind →] theorem spans_expression {n : Node} (hr : RulesLay text rule)
    (h : Takes text c s (expression rule) n t) : n.Spans text s.current.span.start t.last.stop := by
  have hp := h
  simp [expression] at hp
  obtain ⟨first, u, hu, hp⟩ := hp
  have hfirst := hr.assignment hu
  rcases hp with ⟨-, others, hv, -, rfl⟩ | ⟨-, -, rfl, rfl⟩
  · have hothers := allWithin_collect hv fun s n t h => by
      simp at h
      grind
    exact h.spans hfirst.start_eq rfl (by grind) (by grind) nofun trivial
  · exact hfirst

@[grind →] theorem takes_memberKey {key : MemberKey × Span} (hr : RulesLay text rule)
    (h : Takes text c s (memberKey rule) key t) :
    Node.AllWithin text s.current.span.start t.last.stop key.1.nodes ∧
      key.2 = ⟨s.current.span.start, t.last.stop⟩ ∧ s.current.span.start ≤ t.last.stop := by
  simp [memberKey] at h
  split at h <;> simp at h <;> grind [MemberKey.nodes]

theorem spans_keyName {key : MemberKey × Span} (hr : RulesLay text rule)
    (h : Takes text c s (memberKey rule) key t) (word : String) :
    Node.Spans text s.current.span.start t.last.stop (.name key.2 word) := by
  obtain ⟨-, hspan, hle⟩ := takes_memberKey hr h
  exact h.spans (by rw [hspan]; rfl) (by rw [hspan]; rfl) hle (by simp [Node.children]) nofun trivial

/-- A default value behind a target goes on with it. -/
@[grind →] theorem spans_withDefault {value : Parser Node} {target n : Node} {lo : Nat}
    (hv : Lays text value) (h : Takes text c s (withDefault value target) n t)
    (ht : target.Spans text lo s.last.stop) : n.Spans text lo t.last.stop := by
  have hp := h
  simp [withDefault] at hp
  rcases hp with ⟨-, u, hu, m, hm, -, rfl⟩ | ⟨-, -, rfl, rfl⟩
  · exact h.spans_from ht.start_isBoundary ht.start_eq rfl (by grind) (by grind) nofun trivial
  · exact ht

theorem lays_assignment (hr : RulesLay text rule) : Lays text (assignment rule) :=
  fun _ _ _ _ => spans_assignment hr

theorem lays_bindingElement (hr : RulesLay text rule) : Lays text (bindingElement rule) := by
  intro c s n t h
  simp [bindingElement] at h
  obtain ⟨target, u, hu, hp⟩ := h
  exact spans_withDefault (lays_assignment hr) hp (hr.bindingTarget false hu)

theorem lays_parameter (hr : RulesLay text rule) : Lays text (parameter rule) := by
  intro c s n t h
  simp [parameter] at h
  obtain ⟨target, u, hu, hp⟩ := h
  exact spans_withDefault hr.assignment hp (hr.bindingTarget false hu)

section lists

variable {close : String} {fault : SyntaxFault} {hole : Option (Parser Node)}
  {element rest member : Parser Node}

theorem allWithin_elements_go {fuel lo : Nat} {restSpan : Option Span} {read ns : List Node}
    (hh : ∀ p ∈ hole, Lays text p) (he : Lays text element) (hrest : Lays text rest)
    (h : Takes text c s (elements.go close fault hole element rest fuel restSpan read) ns t)
    (hlo : lo ≤ s.current.span.start) (hread : Node.AllWithin text lo s.last.stop read) :
    Node.AllWithin text lo t.last.stop ns := by
  induction fuel generalizing read restSpan s with
  | zero =>
    simp [elements.go] at h
    grind
  | succ fuel ih =>
    simp [elements.go] at h
    rcases h with ⟨-, -, rfl, rfl⟩ | ⟨-, h⟩
    · grind
    · split at h
      next hole' hsome =>
        have hl := hh hole' (Prod.mk.inj hsome).1
        simp at h
        grind
      next =>
        split at h
        · simp at h
        · simp at h
          grind

theorem laysAll_elements (hh : ∀ p ∈ hole, Lays text p) (he : Lays text element)
    (hrest : Lays text rest) : LaysAll text (elements close fault hole element rest) := by
  intro c s ns t h
  simp [elements] at h
  exact allWithin_elements_go hh he hrest h (Nat.le_refl _) (by simp)

theorem allWithin_members_go {fuel lo : Nat} {read : List Node} {comma : Option Span}
    {found : List Node × Option Span} (hm : Lays text member)
    (h : Takes text c s (members.go member fuel read comma) found t)
    (hlo : lo ≤ s.current.span.start) (hread : Node.AllWithin text lo s.last.stop read) :
    Node.AllWithin text lo t.last.stop found.1 := by
  induction fuel generalizing read comma s with
  | zero =>
    simp [members.go] at h
    grind
  | succ fuel ih =>
    simp [members.go] at h
    grind

theorem allWithin_members {found : List Node × Option Span} (hm : Lays text member)
    (h : Takes text c s (members member) found t) :
    Node.AllWithin text s.current.span.start t.last.stop found.1 := by
  simp [members] at h
  exact allWithin_members_go hm h (Nat.le_refl _) (by simp)

/-- Members behind an offset do not take all of the text from it on. -/
theorem noneSpans_members_go {fuel lo : Nat} {read : List Node} {comma : Option Span}
    {found : List Node × Option Span} (hm : Lays text member)
    (h : Takes text c s (members.go member fuel read comma) found t)
    (hlo : lo < s.current.span.start) (hread : Node.NoneSpans lo s.last.stop read) :
    Node.NoneSpans lo t.last.stop found.1 := by
  induction fuel generalizing read comma s with
  | zero =>
    simp [members.go] at h
    grind
  | succ fuel ih =>
    simp [members.go] at h
    grind

/-- None of the members takes all of the text, because there is a brace or a comma behind the first
one. -/
theorem noneSpans_members {found : List Node × Option Span} (hm : Lays text member)
    (h : Takes text c s (members member) found t) :
    Node.NoneSpans s.current.span.start t.last.stop found.1 := by
  simp [members, members.go] at h
  grind [noneSpans_members_go]

end lists

theorem lays_hole : Lays text hole := by
  intro c s n t h
  have hp := h
  simp [hole] at hp
  obtain ⟨hu, -, rfl⟩ := hp
  have hlast := hu.last_eq
  exact h.spans rfl (by rw [hlast]; rfl) (by grind) (by grind) nofun trivial

theorem lays_restElement (hr : RulesLay text rule) : Lays text (restElement rule) := by
  intro c s n t h
  have hp := h
  simp [restElement] at hp
  obtain ⟨u, hu, target, ht, -, rfl⟩ := hp
  have htarget := hr.bindingTarget false ht
  exact h.spans rfl rfl (by grind) (by grind) nofun trivial

theorem lays_arrayPattern (hr : RulesLay text rule) : Lays text (arrayPattern rule) := by
  intro c s n t h
  have hp := h
  simp [arrayPattern] at hp
  obtain ⟨u, hu, parts, v, hv, ⟨-, hclose⟩, -, rfl⟩ := hp
  have hparts := laysAll_elements (by simpa using lays_hole) (lays_bindingElement hr)
    (lays_restElement hr) hv
  exact h.spans rfl rfl (by grind) (by grind) nofun trivial

theorem lays_patternMember (hr : RulesLay text rule) : Lays text (patternMember rule) := by
  intro c s n t h
  have hp := h
  simp [patternMember] at hp
  rcases hp with ⟨-, hrest⟩ | ⟨-, key, keySpan, u, hu, hp⟩
  · exact lays_restElement hr hrest
  · have hkey := takes_memberKey hr hu
    rcases hp with ⟨-, v, hv, value, hvalue, -, rfl⟩ | ⟨-, hp⟩
    · have hw := lays_bindingElement hr hvalue
      exact h.spans rfl rfl (by grind) (by grind) nofun trivial
    · split at hp
      next word =>
        have hname := spans_keyName hr hu word
        simp at hp
        rcases hp with ⟨-, hp⟩ | ⟨-, -, rfl, rfl⟩
        · exact spans_withDefault (lays_assignment hr) hp hname
        · exact h.spans rfl rfl (by grind) (by grind) nofun trivial
      next => simp at hp

theorem lays_objectPattern (hr : RulesLay text rule) : Lays text (objectPattern rule) := by
  intro c s n t h
  have hp := h
  simp [objectPattern] at hp
  obtain ⟨u, hu, parts, comma, v, hv, hcheck, -, rfl⟩ := hp
  have hparts := allWithin_members (lays_patternMember hr) hv
  exact h.spans rfl rfl (by grind) (by grind) nofun trivial

theorem lays_bindingTarget (hr : RulesLay text rule) (isLexical : Bool) :
    Lays text (bindingTarget rule isLexical) := by
  intro c s n t h
  simp [bindingTarget] at h
  split at h
  · exact lays_boundName isLexical h
  · exact lays_arrayPattern hr h
  · exact lays_objectPattern hr h
  · simp at h
  · simp at h

theorem laysAll_parameters (hr : RulesLay text rule) : LaysAll text (parameters rule) := by
  refine laysAll_elements (by simp) (lays_parameter hr) ?_
  intro c s n t h
  have hp := h
  simp at hp
  obtain ⟨u, hu, target, ht, -, -, rfl⟩ := hp
  have htarget := hr.bindingTarget false ht
  exact h.spans rfl rfl (by grind) (by grind) nofun trivial

theorem lays_block (hr : RulesLay text rule) (mayBeStrict : Bool) :
    Lays text (block rule mayBeStrict) := by
  intro c s n t h
  have hp := h
  simp [block] at hp
  obtain ⟨u, ⟨hopen, hu⟩, body, v, hv, hp⟩ := hp
  have hlt := hu.lt_of_punctuator hopen (by decide)
  have hstatement := hr.statement true
  have hstep {c : Surroundings} ⦃s : Progress⦄ ⦃n : Node⦄ ⦃t : Progress⦄
      (h : Takes text c s (do
        if ← at? "\x7d" then return none
        else if ← atEnd then
          note (.expected "\x7d" "<eof>") (← current).span
          return none
        else some <$> rule (.statement true)) (some n) t) :
      n.Spans text s.current.span.start t.last.stop := by
    simp at h
    grind
  have hbody := allWithin_collect hv fun s n t h => (hstep h).within
  have hbrace (hreads : ReadsAt text s.current.span.start "\x7b".toList) :
      u.last.stop = s.current.span.start + 1 := by
    rw [hu.last_eq]
    exact hu.fits.stop_of_readsAt (.inl hopen) hreads rfl (by decide) (by decide)
  have hrow := inRow_collect hv hstep
  rcases hp with ⟨-, -, rfl, rfl⟩ | ⟨-, hclose, -, rfl⟩
  · exact h.spans rfl rfl (by grind) (by grind) (by grind) ⟨_, hbrace, hrow⟩
  · exact h.spans rfl rfl (by grind) (by grind) (by grind) ⟨_, hbrace, hrow⟩

theorem exists_of_block {mayBeStrict : Bool} {n : Node}
    (h : Takes text c s (block rule mayBeStrict) n t) : ∃ span body, n = .block span body := by
  simp [block] at h
  obtain ⟨u, -, body, v, -, h⟩ := h
  rcases h with ⟨-, -, rfl, -⟩ | ⟨-, -, -, rfl⟩
  · exact ⟨_, _, rfl⟩
  · exact ⟨_, _, rfl⟩

@[grind →] theorem Takes.eq_of_checkStrictBody {params : List Node} {body : Node} {a : Unit}
    (h : Takes text c s (checkStrictBody params body) a t) : t = s := by
  simp [checkStrictBody] at h
  split at h
  · split at h <;> simp at h
    · exact h.2.2
    · exact h.2
  · simp at h
    exact h.2

theorem lays_checkedBody {body : Parser Node} (hb : Lays text body) (params : List Node) :
    Lays text (checkedBody params body) := by
  intro c s n t h
  simp [checkedBody] at h
  obtain ⟨u, hn, hcheck, -⟩ := h
  rw [hcheck.eq_of_checkStrictBody]
  exact hb hn

@[simp] theorem takes_inBody {α : Type} {isAsync isGenerator isArrow : Bool} {p : Parser α} {a : α} :
    Takes text c s (inBody isAsync isGenerator isArrow p) a t ↔
      Takes text
        { c with
          topLevel := false, inAsync := isAsync, inGenerator := isGenerator, inFunction := true,
          inStaticBlock := false, allowBreak := false, allowContinue := false,
          allowNewTarget := c.allowNewTarget || !isArrow, labels := [] } s p a t :=
  takes_withReader

theorem lays_functionBody (hr : RulesLay text rule) (params : List Node)
    (isAsync isGenerator : Bool) : Lays text (functionBody rule params isAsync isGenerator) := by
  refine lays_checkedBody (fun c s n t h => ?_) params
  simp at h
  exact lays_block hr true h

section functions

variable {start : Nat} {isAsync isGenerator : Bool} {n : Node}

/-- A function from an offset on that its parameters are behind. What it shows is behind there too. -/
theorem spans_functionRest {params : Parser (List Node)} (hr : RulesLay text rule)
    (hparams : LaysAll text params)
    (h : Takes text c s (functionRest rule start isAsync isGenerator params) n t)
    (hstart : isBoundary start text = true) (hle : start ≤ s.current.span.start) :
    n.Spans text start t.last.stop ∧ Node.Kept s.current.span.start t.last.stop [n] := by
  have hp := h
  simp [functionRest] at hp
  obtain ⟨s₁, ⟨-, h₁⟩, ps, s₂, h₂, s₃, ⟨-, h₃⟩, body, h₄, -, rfl⟩ := hp
  have hps := hparams h₂
  have hbody := lays_functionBody hr ps isAsync isGenerator h₄
  have hparts : Node.AllWithin text s.current.span.start t.last.stop (ps ++ [body]) := by grind
  exact ⟨h.spans_from hstart rfl rfl (by grind) (hparts.mono hle (Nat.le_refl _)) nofun trivial,
    hparts.kept.of_fewer (Node.fewer_node rfl (fun _ => rfl) (.refl _))⟩

theorem spans_memberFunction {params : Parser (List Node)} (hr : RulesLay text rule)
    (hparams : LaysAll text params)
    (h : Takes text c s (memberFunction rule start isAsync isGenerator params) n t)
    (hstart : isBoundary start text = true) (hle : start ≤ s.current.span.start) :
    n.Spans text start t.last.stop ∧ Node.Kept s.current.span.start t.last.stop [n] := by
  simp [memberFunction] at h
  exact spans_functionRest hr hparams h hstart hle

/-- A function behind a key, where the function's own text begins with the key. -/
theorem spans_keyed {α : Type} {p : Parser α} {a : α} {key : List Node} {form : Form}
    (h : Takes text c s p a t) (hle : start ≤ s.last.stop)
    (hkey : Node.AllWithin text start s.last.stop key) (hn : n.Spans text start t.last.stop)
    (hkept : Node.Kept s.current.span.start t.last.stop [n]) :
    Node.Spans text start t.last.stop (.other n.span form (key ++ [n])) := by
  have hplaces := h.le
  refine .plain hn.start_eq hn.stop_eq
    ⟨hn.start_isBoundary, h.fits_after.last_isBoundary, hn.le⟩ ?_ ?_ rfl trivial
  · simpa [Node.children] using
      ⟨hkey.laidIn.mono (Nat.le_refl _) (by omega), hn.within.toLaidIn⟩
  · exact hkey.kept.append (hkept.mono hplaces.1 (Nat.le_refl _)) hle (by omega)

theorem laysAll_getterParameters (hr : RulesLay text rule) (keySpan : Span) :
    LaysAll text (getterParameters rule keySpan) := by
  intro c s ns t h
  simp [getterParameters] at h
  have hparams := laysAll_parameters hr
  grind

theorem laysAll_setterParameters (hr : RulesLay text rule) (keySpan : Span) :
    LaysAll text (setterParameters rule keySpan) := by
  intro c s ns t h
  simp [setterParameters] at h
  obtain ⟨params, u, hu, -, h⟩ := h
  have hparams := laysAll_parameters hr hu
  split at h <;> simp at h
  grind

theorem spans_functionFrom {isDeclaration needsName : Bool} (hr : RulesLay text rule)
    (h : Takes text c s (functionFrom rule start isAsync isDeclaration needsName) n t)
    (hstart : isBoundary start text = true) (hle : start ≤ s.current.span.start) :
    n.Spans text start t.last.stop := by
  have hp := h
  simp [functionFrom] at hp
  have hparams := laysAll_parameters hr
  obtain ⟨u, ⟨-, hu⟩, hp⟩ := hp
  rcases hp with ⟨-, v, hv, w, hw, f, hf, -, rfl⟩ | ⟨-, w, hw, f, hf, -, rfl⟩
  · obtain ⟨hspan, -⟩ := spans_functionRest hr hparams hf hstart (by grind)
    exact h.spans_from hstart hspan.start_eq hspan.stop_eq (by grind) (by grind) nofun trivial
  · obtain ⟨hspan, -⟩ := spans_functionRest hr hparams hf hstart (by grind)
    exact h.spans_from hstart hspan.start_eq hspan.stop_eq (by grind) (by grind) nofun trivial

theorem lays_function (hr : RulesLay text rule) (isDeclaration needsName : Bool) :
    Lays text (function rule isDeclaration needsName) := by
  intro c s n t h
  have hp := h
  simp [function] at hp
  rcases hp with ⟨-, u, hu, hp⟩ | ⟨-, hp⟩
  · exact spans_functionFrom hr hp h.fits.start_isBoundary (by grind)
  · exact spans_functionFrom hr hp h.fits.start_isBoundary (by grind)

/-- The parts of an arrow function behind its parameters. -/
theorem takes_arrowRest {params : List Node} (hr : RulesLay text rule)
    (h : Takes text c s (arrowRest rule start isAsync params) n t) :
    ∃ body, n = .arrow ⟨start, t.last.stop⟩ params body ∧
      body.Spans text s.current.span.start t.last.stop := by
  simp [arrowRest] at h
  obtain ⟨body, hb, -, rfl⟩ := h
  refine ⟨body, rfl, lays_checkedBody (fun c s n t h => ?_) params hb⟩
  simp at h
  rcases h with ⟨-, h⟩ | ⟨-, h⟩
  · exact lays_block hr false h
  · exact hr.assignment h

/-- An arrow function from an offset on that its parameters are behind. -/
theorem spans_arrowRest {params : List Node} (hr : RulesLay text rule)
    (h : Takes text c s (arrowRest rule start isAsync params) n t)
    (hstart : isBoundary start text = true) (hle : start ≤ s.last.stop)
    (hparams : Node.AllLaidIn text start s.last.stop params)
    (hkept : Node.Kept start s.last.stop params) : n.Spans text start t.last.stop := by
  obtain ⟨body, rfl, hbody⟩ := takes_arrowRest hr h
  have hle' := h.le
  refine .plain rfl rfl ⟨hstart, h.fits_after.last_isBoundary, by grind⟩ ?_ ?_ rfl trivial
  · have hlater : body.LaidIn text start t.last.stop :=
      hbody.within.toLaidIn.mono (by omega) (Nat.le_refl _)
    simpa [Node.children] using ⟨hparams.mono (Nat.le_refl _) (by grind), hlater⟩
  · have hlater := hbody.kept.mono hle'.1 (Nat.le_refl _)
    exact hkept.append hlater hle (by grind)

end functions

end Parser

end Adequacy
