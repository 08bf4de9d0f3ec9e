import Adequacy.Proofs.ExpressionLayout

namespace Adequacy

namespace Parser

variable {text : List Char} {c : Surroundings} {s t : Progress} {rule : Productions} {n : Node}

@[grind →] theorem takes_parenthesized (hr : RulesLay text rule)
    (h : Takes text c s (parenthesized rule) n t) :
    n.Within text (s.current.span.start + 1) t.last.stop := by
  simp [parenthesized] at h
  obtain ⟨u, ⟨hopen, hu⟩, v, hv, ⟨-, hend⟩, -⟩ := h
  have hlt := hu.lt_of_punctuator hopen (by decide)
  have hn := spans_expression hr hv
  grind

theorem lays_substatement (hr : RulesLay text rule) : Lays text (substatement rule) := by
  intro c s n t h
  simp [substatement] at h
  exact hr.statement false h

theorem lays_loopBody (hr : RulesLay text rule) : Lays text (loopBody rule) := by
  intro c s n t h
  simp [loopBody] at h
  exact lays_substatement hr h

theorem looks_variableWord? : Looks variableWord? := by
  intro c s
  obtain ⟨w, hw⟩ := looks_word? c s
  unfold variableWord?
  rw [Moving.run_bind_of_run hw]
  split <;> exact ⟨_, rfl⟩

section declarations

variable {word : String} {inHead : Bool}

@[grind →] theorem takes_initializer? {start : Nat} {target : Node} {init : Option Node}
    (hr : RulesLay text rule)
    (h : Takes text c s (initializer? rule word inHead start target) init t) :
    Node.AllWithin text s.current.span.start t.last.stop init.toList := by
  simp [initializer?] at h
  rcases h with ⟨-, -, rfl, rfl⟩ | ⟨-, ⟨-, u, hu, value, hv, rfl⟩ | ⟨-, -, -, -, rfl, rfl⟩⟩
  · simp
  · have hvalue := hr.assignment hv
    grind
  · simp

theorem lays_declarator (hr : RulesLay text rule) (word : String) (inHead : Bool) :
    Lays text (declarator rule word inHead) := by
  intro c s n t h
  have hp := h
  simp [declarator] at hp
  obtain ⟨target, u, hu, init, hinit, -, rfl⟩ := hp
  have htarget := hr.bindingTarget _ hu
  exact h.spans rfl rfl (by grind) (by grind) nofun trivial

theorem allWithin_declarators_go {fuel lo : Nat} {read ns : List Node} (hr : RulesLay text rule)
    (h : Takes text c s (declarators.go rule word inHead fuel read) ns t)
    (hlo : lo ≤ s.current.span.start) (hread : Node.AllWithin text lo s.last.stop read) :
    Node.AllWithin text lo t.last.stop ns := by
  induction fuel generalizing read s with
  | zero =>
    simp [declarators.go] at h
    grind
  | succ fuel ih =>
    have hd := lays_declarator hr word inHead
    simp [declarators.go] at h
    grind

theorem laysAll_declarators (hr : RulesLay text rule) (word : String) (inHead : Bool) :
    LaysAll text (declarators rule word inHead) := by
  intro c s ns t h
  simp [declarators] at h
  exact allWithin_declarators_go hr h (Nat.le_refl _) (by simp)

theorem lays_variableDeclaration (hr : RulesLay text rule) (word : String) (inHead : Bool) :
    Lays text (variableDeclaration rule word inHead) := by
  intro c s n t h
  have hp := h
  simp [variableDeclaration, endDeclaration] at hp
  have hd := laysAll_declarators hr word inHead
  obtain ⟨parts, u, rfl, hle, hparts⟩ : ∃ (parts : List Node) (u : Progress),
      n = .other ⟨s.current.span.start, t.last.stop⟩ .variableDeclaration parts ∧
        s.current.span.start ≤ u.last.stop ∧ Node.AllWithin text u.current.span.start t.last.stop parts := by
    grind
  exact h.spans rfl rfl (by grind) (by grind) nofun trivial

theorem takes_usingDeclaration? {start : Nat} {found : Option Node}
    (h : Takes text c s (usingDeclaration? rule start) found t) : found = none ∧ t = s := by
  simp [usingDeclaration?] at h
  exact h.2.2

theorem lays_awaitUsing (hr : RulesLay text rule) : Lays text (awaitUsing rule) := by
  intro c s n t h
  have hp := h
  simp [awaitUsing] at hp
  obtain ⟨u, hu, found, v, hv, hp⟩ := hp
  obtain ⟨rfl, rfl⟩ := takes_usingDeclaration? hv
  simp at hp
  have hname : Node.Spans text s.current.span.start v.last.stop (.name s.current.span "await") :=
    hu.spans_name hu.last_eq
  rw [← hu.last_eq] at hname
  obtain ⟨operand, w, hw, e, x, hx, hend, -, rfl⟩ := hp
  have hoperand := spans_awaitExpression hr hw hname
  have he := hr.operators hx hoperand
  rw [hu.last_eq] at he
  exact h.spans rfl rfl (by grind) (by grind) nofun trivial

end declarations

/-- The head of a loop is laid out. Where it has no test, the semicolon in its place follows the first
part or the parenthesis. -/
def LoopHead.LaidOut (text : List Char) (lo hi paren : Nat) : LoopHead → Prop
  | .steps init test step =>
    Node.AllWithin text lo hi (init.toList ++ test.toList ++ step.toList) ∧
      (test = none → ∃ semi, Behind text (init.elim paren (·.span.stop)) ";" semi ∧ semi ≤ hi)
  | .each _ left right => Node.AllWithin text lo hi [left, right]

section loops

variable {lo paren : Nat} {head : LoopHead}

theorem takes_loopTest? {test : Option Node} (hr : RulesLay text rule)
    (h : Takes text c s (loopTest? rule) test t) :
    Node.AllWithin text s.current.span.start t.last.stop test.toList ∧ s.last.stop ≤ t.last.stop := by
  simp [loopTest?] at h
  grind

theorem takes_stepsHead {init : Option Node} (hr : RulesLay text rule)
    (h : Takes text c s (stepsHead rule init) head t) (hlo : lo ≤ s.last.stop)
    (hinit : Node.AllWithin text lo s.last.stop init.toList)
    (hsemi : ∃ semi, Behind text (init.elim paren (·.span.stop)) ";" semi ∧ semi ≤ s.last.stop) :
    head.LaidOut text lo t.last.stop paren := by
  simp [stepsHead] at h
  obtain ⟨test, u, hu, h⟩ := h
  obtain ⟨htest, hle⟩ := takes_loopTest? hr hu
  have hmark : test = none → ∃ semi, Behind text (init.elim paren (·.span.stop)) ";" semi ∧
      semi ≤ t.last.stop := by
    intro
    obtain ⟨semi, hb, hroom⟩ := hsemi
    exact ⟨semi, hb, by grind⟩
  rcases h with ⟨-, -, rfl, rfl⟩ | ⟨-, step, hv, -, rfl⟩
  · exact ⟨by grind, hmark⟩
  · exact ⟨by grind, hmark⟩

theorem takes_eachHead {left : Node} (hr : RulesLay text rule)
    (h : Takes text c s (eachHead rule left) head t) (hlo : lo ≤ s.last.stop)
    (hleft : left.Within text lo s.last.stop) : head.LaidOut text lo t.last.stop paren := by
  simp [eachHead] at h
  obtain ⟨isOf, right, u, rfl, hle, hright⟩ : ∃ (isOf : Bool) (right : Node) (u : Progress),
      head = .each isOf left right ∧ s.last.stop ≤ u.last.stop ∧ right.Within text u.last.stop t.last.stop := by
    grind
  exact by simp [LoopHead.LaidOut]; grind

/-- A semicolon that is taken behind a node. -/
theorem semicolon {c' : Surroundings} {p : Parser Node} {init : Node} {u : Progress} {a : Unit}
    (hu : Takes text c' s p init u) (hv : Takes text c u advance a t)
    (hs : u.current.lexeme = .punctuator ";") (hinit : init.span.stop = u.last.stop) :
    ∃ semi, Behind text ((some init).elim paren (·.span.stop)) ";" semi ∧ semi ≤ t.last.stop := by
  have hmark := hu.fits_after.behind (.inl hs)
  rw [← hv.last_eq, ← hinit] at hmark
  exact ⟨_, hmark, Nat.le_refl _⟩

theorem takes_loopHead (hr : RulesLay text rule) (h : Takes text c s (loopHead rule) head t)
    (hlo : lo ≤ s.last.stop) : head.LaidOut text lo t.last.stop s.last.stop := by
  simp [loopHead, takes_bind_of_looks looks_variableWord?] at h
  obtain ⟨found, -, h⟩ := h
  cases found with
  | some word =>
    simp at h
    obtain ⟨vars, u, hu, ⟨-, v, hv, h⟩ | ⟨-, v, ⟨hs, hv⟩, h⟩⟩ := h
    · have hvars := lays_variableDeclaration hr word true hu
      exact takes_eachHead hr h (by grind) (by grind)
    · have hvars := lays_variableDeclaration hr word true hu
      exact takes_stepsHead hr h (by grind) (by grind) (semicolon hu hv hs hvars.stop_eq)
  | none =>
    simp at h
    rcases h with ⟨hs, v, hv, h⟩ | ⟨-, init, u, hu, h⟩
    · have hmark := hv.fits.behind (.inl hs)
      rw [← hv.last_eq] at hmark
      exact takes_stepsHead hr h (by grind) (by simp) ⟨_, hmark, Nat.le_refl _⟩
    · have hinit := spans_expression hr hu
      rcases h with ⟨-, target, v, hv, h⟩ | ⟨-, v, ⟨hs, hv⟩, h⟩
      · obtain ⟨rfl, htarget⟩ := takes_assignmentTarget hv hinit
        exact takes_eachHead hr h (by grind) (by grind)
      · exact takes_stepsHead hr h (by grind) (by grind) (semicolon hu hv hs hinit.stop_eq)

/-- A keyword ends where it is written to, unless an old comment comes first. -/
theorem stop_of_readsAt {word : String} (h : s.Fits text) (hs : s.current.lexeme = .word word)
    (hk : word ∈ Scan.keywords) (hr : ReadsAt text s.current.span.start word.toList) :
    s.current.span.stop = s.current.span.start + word.utf8ByteSize := by
  have hall : (Scan.keywords.all fun w => w.toList.head?.any fun c => c != '<' && c != '-') = true := by
    cbv
  obtain ⟨c, hc, hne⟩ := (Option.any_eq_true ..).mp (List.all_eq_true.mp hall word hk)
  obtain ⟨hless, hminus⟩ := Bool.and_eq_true_iff.mp hne
  obtain ⟨later, hword⟩ := List.head?_eq_some_iff.mp hc
  exact h.stop_of_readsAt (.inr ⟨hs, hk⟩) hr hword (bne_iff_ne.mp hless) (bne_iff_ne.mp hminus)

theorem lays_forStatement (hr : RulesLay text rule) {c : Surroundings} {s t : Progress} {n : Node}
    (h : Takes text c s (forStatement rule) n t) (hs : s.current.lexeme = .word "for") :
    n.Spans text s.current.span.start t.last.stop := by
  have hp := h
  simp [forStatement] at hp
  obtain ⟨u, hu, ⟨-, v, hv, w, ⟨-, hw⟩, head, x, hhead, y, ⟨-, hy⟩, body, z, hbody, hp⟩ |
    ⟨-, w, ⟨hparen, hw⟩, head, x, hhead, y, ⟨-, hy⟩, body, z, hbody, hp⟩⟩ := hp
  · have hlaid := takes_loopHead hr hhead (Nat.le_refl _)
    have hb := lays_loopBody hr hbody
    cases head with
    | steps init test step => simp at hp
    | each isOf left right =>
      simp at hp
      obtain ⟨-, -, rfl, rfl⟩ := hp
      simp only [LoopHead.LaidOut] at hlaid
      exact h.spans rfl rfl (by grind) (by grind) (by simp [Node.isMutable]) trivial
  · have hlaid := takes_loopHead hr hhead (Nat.le_refl _)
    have hb := lays_loopBody hr hbody
    cases head with
    | steps init test step =>
      simp at hp
      obtain ⟨-, rfl, rfl⟩ := hp
      obtain ⟨hall, hmark⟩ := hlaid
      have hlt := hw.lt_of_punctuator hparen (by decide)
      refine h.spans rfl rfl (by grind) (by grind) (by grind) ?_
      cases test with
      | some e => trivial
      | none =>
        obtain ⟨semi, hb', hroom⟩ := hmark rfl
        have hopen := hw.fits.behind (.inl hparen)
        rw [hu.last_eq, ← hw.last_eq] at hopen
        refine ⟨w.last.stop, semi, fun hreads => ?_, hb', by grind⟩
        rwa [stop_of_readsAt hu.fits hs (by decide) hreads] at hopen
    | each isOf left right =>
      simp at hp
      obtain ⟨-, rfl, rfl⟩ := hp
      simp only [LoopHead.LaidOut] at hlaid
      exact h.spans rfl rfl (by grind) (by grind) (by simp [Node.isMutable]) trivial

theorem lays_whileStatement (hr : RulesLay text rule) : Lays text (whileStatement rule) := by
  intro c s n t h
  have hp := h
  simp [whileStatement] at hp
  obtain ⟨u, hu, test, v, hv, body, hw, -, rfl⟩ := hp
  have hbody := lays_loopBody hr hw
  exact h.spans rfl rfl (by grind) (by grind) (by grind) trivial

theorem lays_doStatement (hr : RulesLay text rule) : Lays text (doStatement rule) := by
  intro c s n t h
  have hp := h
  simp [doStatement] at hp
  obtain ⟨u, hu, body, v, hv, w, ⟨-, hw⟩, test, x, hx, hend⟩ := hp
  have hbody := lays_loopBody hr hv
  obtain ⟨rfl, hle⟩ : n = .doWhile ⟨s.current.span.start, t.last.stop⟩ body test ∧
      x.last.stop ≤ t.last.stop := by
    grind
  exact h.spans rfl rfl (by grind) (by grind) (by grind) trivial

end loops

theorem lays_ifStatement (hr : RulesLay text rule) : Lays text (ifStatement rule) := by
  intro c s n t h
  have hp := h
  simp [ifStatement] at hp
  obtain ⟨u, hu, test, v, hv, yes, w, hw, hp⟩ := hp
  have hyes := lays_substatement hr hw
  rcases hp with ⟨-, x, hx, no, hno, -, rfl⟩ | ⟨-, -, rfl, rfl⟩
  · have hlaid : no.Spans text x.current.span.start t.last.stop := by
      rcases hno with ⟨-, hno⟩ | ⟨-, hno⟩
      · exact hr.statement false hno
      · exact lays_substatement hr hno
    exact h.spans rfl rfl (by grind) (by grind) (by grind) trivial
  · exact h.spans rfl rfl (by grind) (by grind) (by grind) trivial

theorem Takes.eq_of_checkJump {isBreak : Bool} {label : Option String} {span : Span} {a : Unit}
    (h : Takes text c s (checkJump isBreak label span) a t) : t = s := by
  simp [checkJump] at h
  grind

theorem lays_jumpStatement (isBreak : Bool) : Lays text (jumpStatement isBreak) := by
  intro c s n t h
  have hp := h
  simp [jumpStatement] at hp
  obtain ⟨u, hu, label, v, hv, hcheck, -, rfl⟩ := hp
  obtain rfl := hcheck.eq_of_checkJump
  exact h.spans rfl rfl (by grind) (by simp [Node.children]) nofun trivial

theorem lays_returnStatement (hr : RulesLay text rule) : Lays text (returnStatement rule) := by
  intro c s n t h
  have hp := h
  simp [returnStatement] at hp
  obtain ⟨u, hu, ⟨-, v, value, hv, hend, -, -, rfl⟩ | ⟨-, hend, -, -, rfl⟩⟩ := hp
  · exact h.spans rfl rfl (by grind) (by grind) nofun trivial
  · exact h.spans rfl rfl (by grind) (by simp [Node.children]) nofun trivial

theorem lays_throwStatement (hr : RulesLay text rule) : Lays text (throwStatement rule) := by
  intro c s n t h
  have hp := h
  simp [throwStatement] at hp
  obtain ⟨u, hu, -, value, v, hv, hend, -, rfl⟩ := hp
  exact h.spans rfl rfl (by grind) (by grind) nofun trivial

theorem laysAll_catchParameter (hr : RulesLay text rule) : LaysAll text (catchParameter rule) := by
  intro c s ns t h
  have hb := hr.bindingTarget false
  simp [catchParameter] at h
  grind

theorem laysAll_catchClause (hr : RulesLay text rule) : LaysAll text (catchClause rule) := by
  intro c s ns t h
  have hp := h
  simp [catchClause] at hp
  rcases hp with ⟨-, u, hu, param, v, hv, body, hw, -, rfl⟩ | ⟨-, -, rfl, rfl⟩
  · have hparam := laysAll_catchParameter hr hv
    have hbody := lays_block hr false hw
    have hclause : Node.Spans text s.current.span.start t.last.stop
        (.other ⟨s.current.span.start, t.last.stop⟩ .catchClause (param ++ [body])) :=
      h.spans rfl rfl (by grind) (by grind) nofun trivial
    simpa using hclause.within
  · simp

theorem laysAll_finallyBlock (hr : RulesLay text rule) : LaysAll text (finallyBlock rule) := by
  intro c s ns t h
  have hb := lays_block hr false
  simp [finallyBlock] at h
  grind

theorem lays_tryStatement (hr : RulesLay text rule) : Lays text (tryStatement rule) := by
  intro c s n t h
  have hp := h
  simp [tryStatement] at hp
  obtain ⟨u, hu, body, v, hv, handler, w, hw, finalizer, hx, -, -, rfl⟩ := hp
  have hbody := lays_block hr false hv
  have hhandler := laysAll_catchClause hr hw
  have hfinalizer := laysAll_finallyBlock hr hx
  exact h.spans rfl rfl (by grind) (by grind) nofun trivial

theorem lays_withStatement (hr : RulesLay text rule) : Lays text (withStatement rule) := by
  intro c s n t h
  have hp := h
  simp [withStatement] at hp
  obtain ⟨u, hu, v, hv, subject, w, hw, body, hx, -, rfl⟩ := hp
  have hbody := lays_substatement hr hx
  exact h.spans rfl rfl (by grind) (by grind) nofun trivial

theorem takes_strayHandler : ¬ Takes text c s (strayHandler rule) n t := by
  simp [strayHandler]

section switches

theorem looks_atCase : Looks atCase := fun _ _ => ⟨_, rfl⟩

@[simp] theorem takes_atCase {α : Type} {f : Bool → Parser α} {a : α} :
    Takes text c s (atCase >>= f) a t ↔
      ∃ e, atCase.run c s = (.ok e, s) ∧ Takes text c s (f e) a t :=
  takes_bind_of_looks looks_atCase

theorem laysAll_caseBody (hr : RulesLay text rule) : LaysAll text (caseBody rule) := by
  intro c s ns t h
  refine allWithin_collect h fun s n t h => ?_
  simp at h
  exact (hr.statement true h.2.2).within

theorem lays_switchCase (hr : RulesLay text rule) (hasDefault : Bool) :
    Lays text (switchCase rule hasDefault) := by
  intro c s n t h
  have hp := h
  simp [switchCase] at hp
  have hb := laysAll_caseBody hr
  obtain ⟨u, hu, -, ⟨hdefault, v, ⟨hcolon, hv⟩, body, hw, -, rfl⟩ |
    ⟨-, v, test, hv, w, ⟨hcolon, hw⟩, body, hx, -, rfl⟩⟩ := hp
  · have hbody := hb hw
    have hmark := hv.fits.behind (.inl hcolon)
    rw [hu.last_eq, ← hv.last_eq] at hmark
    refine h.spans rfl rfl (by grind) (by grind) nofun ⟨_, _, nofun, fun _ hreads => ?_, hmark, ?_⟩
    · exact stop_of_readsAt hu.fits hdefault (by decide) hreads
    · exact ⟨by grind, fun n hn => by have := (hbody.1 n hn).bounds; grind⟩
  · have hbody := hb hx
    have htest := spans_expression hr hv
    have hmark := hw.fits.behind (.inl hcolon)
    rw [← htest.stop_eq, ← hw.last_eq] at hmark
    refine h.spans rfl rfl (by grind) (by grind) nofun ⟨_, _, ?_, nofun, hmark, ?_⟩
    · intro e he
      cases he
      rfl
    · exact ⟨by grind, fun n hn => by have := (hbody.1 n hn).bounds; grind⟩

theorem allWithin_switchCases_go {hasDefault : Bool} {fuel lo : Nat} {read ns : List Node}
    (hr : RulesLay text rule) (h : Takes text c s (switchCases.go rule fuel hasDefault read) ns t)
    (hlo : lo ≤ s.current.span.start) (hread : Node.AllWithin text lo s.last.stop read) :
    Node.AllWithin text lo t.last.stop ns := by
  induction fuel generalizing hasDefault read s with
  | zero =>
    simp [switchCases.go] at h
    grind
  | succ fuel ih =>
    have hc := lays_switchCase hr hasDefault
    simp [switchCases.go] at h
    grind

theorem laysAll_switchCases (hr : RulesLay text rule) : LaysAll text (switchCases rule) := by
  intro c s ns t h
  simp [switchCases] at h
  exact allWithin_switchCases_go hr h (Nat.le_refl _) (by simp)

theorem lays_switchStatement (hr : RulesLay text rule) : Lays text (switchStatement rule) := by
  intro c s n t h
  have hp := h
  simp [switchStatement] at hp
  obtain ⟨u, hu, subject, v, hv, w, ⟨-, hw⟩, cases, x, hx, ⟨-, hy⟩, -, rfl⟩ := hp
  have hcases := laysAll_switchCases hr hx
  exact h.spans rfl rfl (by grind) (by grind) nofun trivial

end switches

section expressions

theorem lays_labelledFunction (hr : RulesLay text rule) : Lays text (labelledFunction rule) := by
  intro c s n t h
  simp [labelledFunction] at h
  exact lays_function hr true true h.1

theorem spans_labelledStatement {span : Span} {label : String} (hr : RulesLay text rule)
    (h : Takes text c s (labelledStatement rule span label) n t)
    (hstart : isBoundary span.start text = true) (hle : span.start ≤ s.current.span.start) :
    n.Spans text span.start t.last.stop := by
  have hp := h
  simp [labelledStatement] at hp
  obtain ⟨body, hbody, -, -, rfl⟩ := hp
  have hlaid : body.Spans text s.current.span.start t.last.stop := by
    rcases hbody with ⟨-, hbody⟩ | ⟨-, hbody⟩
    · exact lays_labelledFunction hr hbody
    · exact lays_substatement hr hbody
  exact h.spans_from hstart rfl rfl (by grind) (by grind) nofun trivial

theorem spans_expressionEnd {e : Node} {lo : Nat}
    (h : Takes text c s (expressionEnd rule lo e) n t) (he : e.Spans text lo s.last.stop) :
    n.Spans text lo t.last.stop := by
  have hp := h
  simp [expressionEnd] at hp
  obtain ⟨hend, -, rfl⟩ := hp
  exact h.spans_from he.start_isBoundary rfl rfl (by grind) (by grind) nofun trivial

theorem lays_expressionStatement (hr : RulesLay text rule) :
    Lays text (expressionStatement rule) := by
  intro c s n t h
  simp [expressionStatement] at h
  obtain ⟨e, u, hu, h⟩ := h
  have he := spans_expression hr hu
  split at h
  next span label =>
    simp at h
    have hstart : span.start = s.current.span.start := he.start_eq
    rcases h with ⟨-, v, hv, h⟩ | ⟨-, ⟨-, v, hv, h⟩ | ⟨-, h⟩⟩
    · have := spans_labelledStatement hr h (hstart ▸ he.start_isBoundary) (by grind)
      rw [← hstart]
      exact this
    · have hsame := hv.same_of_noteStrict
      exact spans_expressionEnd h (by rw [hsame.2]; exact he)
    · exact spans_expressionEnd h he
  next => exact spans_expressionEnd h he

end expressions

theorem lays_declaration {parse : Parser Node} (withDeclarations : Bool) (hp : Lays text parse) :
    Lays text (declaration withDeclarations parse) := by
  intro c s n t h
  simp [declaration] at h
  exact hp h.2

theorem lays_debuggerStatement : Lays text debuggerStatement := by
  intro c s n t h
  have hp := h
  simp [debuggerStatement] at hp
  obtain ⟨u, hu, hend, -, rfl⟩ := hp
  exact h.spans rfl rfl (by grind) (by simp [Node.children]) nofun trivial

theorem lays_plainStatement (hr : RulesLay text rule) (withDeclarations : Bool) :
    Lays text (plainStatement rule withDeclarations) := by
  intro c s n t h
  simp [plainStatement] at h
  split at h
  · exact lays_block hr false h
  · exact lays_takeOther _ h
  · exact lays_jumpStatement true h
  · exact absurd h takes_strayHandler
  · exact absurd h takes_strayHandler
  · exact lays_jumpStatement false h
  · exact lays_debuggerStatement h
  · exact lays_doStatement hr h
  next hs => exact lays_forStatement hr h hs
  · exact lays_declaration _ (lays_function hr true true) h
  · exact lays_declaration _ (lays_classFrom hr true true) h
  · exact lays_ifStatement hr h
  · exact lays_returnStatement hr h
  · exact lays_switchStatement hr h
  · exact lays_throwStatement hr h
  · exact lays_tryStatement hr h
  · exact lays_withStatement hr h
  · exact lays_whileStatement hr h
  · simp [takes_bind_of_looks looks_atAsyncFunction] at h
    rcases h with ⟨-, h⟩ | ⟨-, h⟩
    · exact lays_expressionStatement hr h
    · exact lays_function hr true true h

theorem Takes.same_of_atAwaitUsing {withDeclarations b : Bool}
    (h : Takes text c s (atAwaitUsing withDeclarations) b t) :
    t.current = s.current ∧ t.last = s.last := by
  simp [atAwaitUsing] at h
  grind

theorem lays_usingOrPlain (hr : RulesLay text rule) (withDeclarations : Bool) :
    Lays text (usingOrPlain rule withDeclarations) := by
  intro c s n t h
  have hplain := lays_plainStatement hr withDeclarations
  simp [usingOrPlain] at h
  rcases h with ⟨u, hu, h⟩ | ⟨u, hu, h⟩
  · rw [← hu.same_of_atAwaitUsing.1]
    rcases h with ⟨-, found, v, hv, h⟩ | ⟨-, h⟩
    · obtain ⟨rfl, rfl⟩ := takes_usingDeclaration? hv
      exact hplain h
    · exact hplain h
  · rw [← hu.same_of_atAwaitUsing.1]
    exact lays_awaitUsing hr h

theorem lays_statement (hr : RulesLay text rule) (withDeclarations : Bool) :
    Lays text (statement rule withDeclarations) := by
  intro c s n t h
  have hplain := lays_usingOrPlain hr withDeclarations
  simp [statement, takes_bind_of_looks looks_variableWord?] at h
  rcases h with ⟨-, found, -, h⟩ | ⟨-, h⟩
  · cases found with
    | some word => exact lays_variableDeclaration hr word false h
    | none => exact hplain h
  · exact hplain h

end Parser

end Adequacy
