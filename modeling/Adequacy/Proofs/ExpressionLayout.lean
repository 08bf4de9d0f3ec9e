import Adequacy.Proofs.AccessLayout

namespace Adequacy

namespace Parser

variable {text : List Char} {c : Surroundings} {s t : Progress} {rule : Productions} {n : Node}

@[grind →] theorem Takes.same_of_checkAwait {span : Span} {a : Unit}
    (h : Takes text c s (checkAwait span) a t) : t.current = s.current ∧ t.last = s.last := by
  simp [checkAwait] at h
  grind

/-- What waits begins where the word before it does. -/
theorem spans_awaitExpression (hr : RulesLay text rule)
    (h : Takes text c s (awaitExpression rule) n t)
    (hname : Node.Spans text s.last.start s.last.stop (.name s.last "await")) :
    n.Spans text s.last.start t.last.stop := by
  have hp := h
  simp [awaitExpression] at hp
  have hawait (h' : ∃ u, Takes text c s (checkAwait s.last) () u ∧
      ∃ e, Takes text c u (rule .unary) e t ∧ (Progress.Fits text t ∧ t.Clean) ∧
        n = .other ⟨s.last.start, t.last.stop⟩ .await [e]) : n.Spans text s.last.start t.last.stop := by
    obtain ⟨u, hu, e, he, -, rfl⟩ := h'
    have hinner := hr.unary he
    have hle := hname.le
    exact h.spans_from hname.start_isBoundary rfl rfl (by grind) (by grind) nofun trivial
  rcases hp with ⟨-, ⟨-, ⟨-, -, -, rfl, rfl⟩ | ⟨-, hp⟩⟩ | ⟨-, ⟨-, -, -, rfl, rfl⟩ | ⟨-, hp⟩⟩⟩
  · exact hname
  · exact hawait hp
  · exact hname
  · exact hawait hp

section operators

variable {op : String}

theorem lexeme_of_updateOp? {l : Lexeme} (h : updateOp? l = some op) :
    l = .punctuator op ∧ op ≠ "" := by
  cases l <;> simp [updateOp?] at h
  obtain ⟨hop, rfl⟩ := h
  exact ⟨rfl, by rcases hop with rfl | rfl <;> decide⟩

theorem writes_of_unaryOp? {l : Lexeme} {cs : List Char} (h : unaryOp? l = some op)
    (hw : l.Written cs) : cs = op.toList := by
  cases l <;> simp [unaryOp?] at h
  · obtain ⟨-, rfl⟩ := h
    exact hw
  · obtain ⟨hword, rfl⟩ := h
    exact hw (by rcases hword with rfl | rfl | rfl <;> decide)

theorem ne_nil_of_unaryOp? {l : Lexeme} (h : unaryOp? l = some op) : op.toList ≠ [] := by
  cases l <;> simp [unaryOp?] at h
  · obtain ⟨hop, rfl⟩ := h
    rcases hop with rfl | rfl | rfl | rfl <;> decide
  · obtain ⟨hop, rfl⟩ := h
    rcases hop with rfl | rfl | rfl <;> decide

/-- A short operator in front of its operand can be parted from it. -/
theorem shaped_of_writes (h : s.Fits text) {stop : Nat} (hstop : s.current.span.stop ≤ stop)
    (hw : ∀ cs, s.current.lexeme.Written cs → cs = op.toList) (hop : op.utf8ByteSize ≤ 2) :
    isBoundary (s.current.span.start + op.utf8ByteSize) text = true ∧
      s.current.span.start + op.utf8ByteSize ≤ stop := by
  obtain ⟨hb, hle⟩ := h.isBoundary_add _ hop fun cs hcs =>
    ⟨op.toList, [], by simp [hw cs hcs], (utf8ByteSize_eq_byteSize op).symm⟩
  exact ⟨hb, hle.trans hstop⟩

theorem spans_updateOf (hr : RulesLay text rule)
    (h : Takes text c s (updateOf rule s.current.span.start op) n t)
    (hop : updateOp? s.current.lexeme = some op) :
    n.Spans text s.current.span.start t.last.stop := by
  have hp := h
  simp [updateOf] at hp
  obtain ⟨u, hu, e, v, hv, hw, -, rfl⟩ := hp
  obtain rfl := hw.eq_of_noteTarget
  obtain ⟨hop, hne⟩ := lexeme_of_updateOp? hop
  have hlt := hu.lt_of_punctuator hop hne
  have he := hr.unary hv
  have hstop := he.stop_eq
  refine h.spans rfl hstop (by grind) (by grind) (by grind) ?_
  refine shaped_of_writes h.fits ?_ fun cs hcs => ?_
  · grind
  · rw [hop] at hcs
    exact hcs

theorem spans_unaryOf (hr : RulesLay text rule)
    (h : Takes text c s (unaryOf rule s.current.span.start op) n t)
    (hop : unaryOp? s.current.lexeme = some op) :
    n.Spans text s.current.span.start t.last.stop := by
  have hp := h
  simp [unaryOf] at hp
  obtain ⟨u, hu, e, v, hv, hp⟩ := hp
  have he := hr.unary hv
  obtain ⟨rfl, hlast⟩ : n = .unary ⟨s.current.span.start, e.span.stop⟩ op e ∧ t.last = v.last := by
    grind
  rw [← hlast] at he
  have hstop := he.stop_eq
  have hlt := h.fits.start_lt_stop fun cs hcs => by
    rw [writes_of_unaryOp? hop hcs]
    exact ne_nil_of_unaryOp? hop
  rw [← hu.last_eq] at hlt
  refine h.spans rfl hstop (by grind) (by grind) (by grind) ?_
  exact shaped_of_writes h.fits (by grind) fun cs => writes_of_unaryOp? hop

theorem lays_postfixExpression (hr : RulesLay text rule) : Lays text (postfixExpression rule) := by
  intro c s n t h
  have hp := h
  simp [postfixExpression] at hp
  obtain ⟨e, u, hu, hp⟩ := hp
  have he := hr.leftHandSide hu
  rcases hp with ⟨-, -, rfl, rfl⟩ | ⟨-, hp⟩
  · exact he
  · split at hp
    next op hop =>
      simp at hp
      obtain ⟨v, hv, hw, -, rfl⟩ := hp
      obtain rfl := hv.eq_of_noteTarget
      obtain ⟨hop, hne⟩ := lexeme_of_updateOp? hop
      have hlt := hw.lt_of_punctuator hop hne
      have hmark := hu.fits_after.behind (.inl hop)
      have hlast := hw.last_eq
      have hroom := hmark.le
      rw [← hlast] at hmark hroom
      rw [← utf8ByteSize_eq_byteSize] at hroom
      have hstart := he.start_eq
      refine h.spans hstart rfl (by grind) (by grind) (by grind) ⟨hmark.start_isBoundary, ?_⟩
      have hle := he.le
      dsimp only
      omega
    next =>
      simp at hp
      obtain ⟨-, rfl, rfl⟩ := hp
      exact he

theorem lays_unaryExpression (hr : RulesLay text rule) : Lays text (unaryExpression rule) := by
  intro c s n t h
  simp [unaryExpression] at h
  split at h
  next op hop => exact spans_updateOf hr h hop
  next op hop _ => exact spans_unaryOf hr h hop
  next =>
    simp at h
    rcases h with ⟨-, u, hu, h⟩ | ⟨-, h⟩
    · have hname : Node.Spans text s.current.span.start u.last.stop (.name s.current.span "await") :=
        hu.spans_name hu.last_eq
      rw [← hu.last_eq] at hname ⊢
      exact spans_awaitExpression hr h hname
    · exact lays_postfixExpression hr h

end operators

/-- The operator at hand as far as it is known without looking around. -/
theorem run_operator? (c : Surroundings) (s : Progress) : ∃ found, operator?.run c s = (.ok found, s) ∧
    ∀ op ∈ found, op ≠ "" ∧ (s.current.lexeme = .punctuator op ∨
      s.current.lexeme = .word op ∧ op ∈ Scan.keywords) := by
  rw [operator?, run_lexeme_bind]
  split
  next hs =>
    refine ⟨_, rfl, fun op hop => ?_⟩
    split at hop <;> cases hop
    exact ⟨by decide, .inr ⟨hs, by decide⟩⟩
  next hs =>
    refine ⟨_, rfl, fun op hop => ?_⟩
    cases hop
    exact ⟨by decide, .inr ⟨hs, by decide⟩⟩
  next op hs =>
    refine ⟨_, rfl, fun op' hop => ?_⟩
    split at hop
    next hbinary =>
      cases hop
      exact ⟨by rintro rfl; exact absurd hbinary (by decide), .inl hs⟩
    next => cases hop
  next => exact ⟨_, rfl, by simp⟩

theorem looks_operator? : Looks operator? := by
  intro c s
  obtain ⟨found, hrun, -⟩ := run_operator? c s
  exact ⟨found, hrun⟩

/-- An operator that is at hand is written there. -/
theorem lexeme_of_operator? {op : String} (h : operator?.run c s = (.ok (some op), s)) :
    op ≠ "" ∧ (s.current.lexeme = .punctuator op ∨
      s.current.lexeme = .word op ∧ op ∈ Scan.keywords) := by
  obtain ⟨found, hrun, hop⟩ := run_operator? c s
  rw [h] at hrun
  cases hrun
  exact hop op rfl

@[grind →] theorem Takes.eq_of_noteMixed {span : Span} {m : Node} {a : Unit}
    (h : Takes text c s (noteMixed span m) a t) : t = s := by
  unfold noteMixed at h
  split at h <;> simp at h
  exact h.2

@[grind →] theorem Takes.eq_of_checkBase {op : String} {m : Node} {a : Unit}
    (h : Takes text c s (checkBase op m) a t) : t = s := by
  simp [checkBase] at h
  rcases h with ⟨-, h⟩ | ⟨-, -, h⟩
  · split at h <;> simp at h
    exact h.2
  · exact h

@[grind →] theorem Takes.eq_of_checkMixed {op : String} {left right m : Node} {a : Unit}
    (h : Takes text c s (checkMixed op left right m) a t) : t = s := by
  simp [checkMixed] at h
  grind

theorem text_of_ofText? {op : String} {l : LogicalOp} (h : LogicalOp.ofText? op = some l) :
    l.text = op := by
  unfold LogicalOp.ofText? at h
  split at h <;> cases h <;> rfl

/-- Two operands and the operator between them are laid out where the first begins. -/
theorem spans_ofOperator {p : Parser Node} {m left right : Node} {op : String}
    {lo mid stop start : Nat} (h : Takes text c s p m t) (hl : left.Spans text lo mid)
    (hop : Behind text mid op stop) (hne : op ≠ "") (hle : stop ≤ start)
    (hr : right.Spans text start t.last.stop) :
    (Node.ofOperator op left right).Spans text lo t.last.stop := by
  have hmark : Behind text left.span.stop op stop := hl.stop_eq ▸ hop
  have hroom : stop ≤ right.span.start := hr.start_eq ▸ hle
  have hmid := hop.lt hne
  unfold Node.ofOperator
  split
  next l hlogical =>
    rw [← text_of_ofText? hlogical] at hmark
    exact h.spans_from hl.start_isBoundary hl.start_eq hr.stop_eq (by grind) (by grind) (by grind)
      ⟨stop, hmark, hroom⟩
  next =>
    exact h.spans_from hl.start_isBoundary hl.start_eq hr.stop_eq (by grind) (by grind) (by grind)
      ⟨stop, hmark, hroom⟩

theorem spans_operation {left : Node} {op : String} {prec lo : Nat} (hr : RulesLay text rule)
    (h : Takes text c s (operation rule left op prec) n t) (hl : left.Spans text lo s.last.stop)
    (hne : op ≠ "")
    (hop : s.current.lexeme = .punctuator op ∨ s.current.lexeme = .word op ∧ op ∈ Scan.keywords) :
    n.Spans text lo t.last.stop := by
  have hp := h
  simp [operation] at hp
  obtain ⟨u, hu, v, hv, operand, w, hw, right, x, hx, hcheck, -, rfl⟩ := hp
  obtain rfl := hv.eq_of_checkBase
  obtain rfl := hcheck.eq_of_checkMixed
  have hright := hr.operators hx (hr.unary hw)
  have hmark := h.fits.behind hop
  rw [← hu.last_eq] at hmark
  exact spans_ofOperator h hl hmark hne hu.fits_after.stop_le_start hright

theorem spans_operators_go {left : Node} {fuel above lo : Nat} (hr : RulesLay text rule)
    (h : Takes text c s (operators.go rule above fuel left) n t)
    (hl : left.Spans text lo s.last.stop) : n.Spans text lo t.last.stop := by
  induction fuel generalizing left s with
  | zero =>
    simp [operators.go] at h
    grind
  | succ fuel ih =>
    simp [operators.go, takes_bind_of_looks looks_operator?] at h
    obtain ⟨found, hfound, h⟩ := h
    cases found with
    | none =>
      simp at h
      grind
    | some op =>
      simp at h
      rcases h with ⟨-, -, rfl, rfl⟩ | ⟨-, m, u, hu, h⟩
      · exact hl
      · obtain ⟨hne, hop⟩ := lexeme_of_operator? hfound
        exact ih h (spans_operation hr hu hl hne hop)

theorem spans_operators {left : Node} {above lo : Nat} (hr : RulesLay text rule)
    (h : Takes text c s (operators rule left above) n t) (hl : left.Spans text lo s.last.stop) :
    n.Spans text lo t.last.stop := by
  simp [operators] at h
  exact spans_operators_go hr h hl

theorem lays_binaryExpression (hr : RulesLay text rule) : Lays text (binaryExpression rule) := by
  intro c s n t h
  simp [binaryExpression, takes_bind_of_looks looks_operator?] at h
  obtain ⟨left, u, hu, ⟨-, -, rfl, rfl⟩ | ⟨-, h⟩⟩ := h
  · exact hr.unary hu
  · exact hr.operators h (hr.unary hu)

theorem lays_conditionalExpression (hr : RulesLay text rule) :
    Lays text (conditionalExpression rule) := by
  intro c s n t h
  have hp := h
  simp [conditionalExpression] at hp
  obtain ⟨test, u, hu, hp⟩ := hp
  have htest := lays_binaryExpression hr hu
  rcases hp with ⟨-, -, rfl, rfl⟩ | ⟨-, ⟨-, v, hv, yes, w, hw, x, ⟨hcolon, hx⟩, no, hno, -, rfl⟩ |
    ⟨-, -, rfl, rfl⟩⟩
  · exact htest
  · have hlast := hr.assignment hno
    have hlt := hx.lt_of_punctuator hcolon (by decide)
    exact h.spans rfl hlast.stop_eq (by grind) (by grind) (by grind) trivial
  · exact htest

theorem lays_yieldExpression (hr : RulesLay text rule) : Lays text (yieldExpression rule) := by
  intro c s n t h
  have hp := h
  simp [yieldExpression] at hp
  have hvalue (h' : ∃ e u, Takes text c u (rule .assignment) e t ∧
      s.current.span.start ≤ u.last.stop ∧
      n = .other ⟨s.current.span.start, t.last.stop⟩ .yield [e]) :
      n.Spans text s.current.span.start t.last.stop := by
    obtain ⟨e, u, he, hle, rfl⟩ := h'
    have hinner := hr.assignment he
    exact h.spans rfl rfl (by grind) (by grind) nofun trivial
  obtain ⟨u, hu, -, ⟨-, ⟨-, -, rfl, rfl⟩ | ⟨-, hp⟩⟩ | ⟨-, -, rfl, rfl⟩⟩ := hp
  · exact h.spans rfl rfl (by grind) (by grind) nofun trivial
  · grind
  · exact h.spans rfl rfl (by grind) (by grind) nofun trivial

theorem takes_targetOf {op : String} {left target : Node} {lo hi : Nat}
    (h : Takes text c s (targetOf op left) target t) (hl : left.Spans text lo hi) :
    t = s ∧ target.Spans text lo hi := by
  simp [targetOf] at h
  rcases h with ⟨-, h⟩ | ⟨-, h, -, rfl⟩
  · exact takes_assignmentTarget h hl
  · exact ⟨h.eq_of_noteTarget, hl⟩

theorem spans_assignmentTo {start : Nat} {op : String} {left : Node} (hr : RulesLay text rule)
    (h : Takes text c s (assignmentTo rule start op left) n t)
    (hl : left.Spans text start s.last.stop) (hop : s.current.lexeme = .punctuator op)
    (hne : op ≠ "") : n.Spans text start t.last.stop := by
  have hp := h
  simp [assignmentTo] at hp
  obtain ⟨target, u, hu, -, v, hv, value, hw, -, rfl⟩ := hp
  obtain ⟨rfl, htarget⟩ := takes_targetOf hu hl
  have hvalue := hr.assignment hw
  have hmark := h.fits.behind (.inl hop)
  rw [← hv.last_eq, ← htarget.stop_eq] at hmark
  have hlt := hv.lt_of_punctuator hop hne
  have hroom := hw.le
  exact h.spans_from hl.start_isBoundary rfl rfl (by grind) (by grind) (by grind)
    ⟨_, hmark, hroom.2.2.1⟩

@[grind →] theorem Takes.same_of_markArrowStart {isHead : Bool} {a : Unit}
    (h : Takes text c s (markArrowStart isHead) a t) : t.current = s.current ∧ t.last = s.last := by
  have hrun := h.run
  cases hrun
  exact ⟨rfl, rfl⟩

theorem Takes.eq_of_refuseBad {a : Unit} (h : Takes text c s refuseBad a t) : t = s := by
  simp [refuseBad] at h
  split at h <;> simp at h
  exact h.2

theorem lexeme_of_assignmentOp? {op : String} {l : Lexeme} (h : assignmentOp? l = some op) :
    l = .punctuator op ∧ op ≠ "" := by
  cases l <;> simp [assignmentOp?] at h
  obtain ⟨hop, rfl⟩ := h
  exact ⟨rfl, by rintro rfl; exact absurd hop (by decide)⟩

theorem lays_assignmentExpression (hr : RulesLay text rule) :
    Lays text (assignmentExpression rule) := by
  intro c s n t h
  simp [assignmentExpression] at h
  rcases h with ⟨-, h⟩ | ⟨-, u, hu, v, hv, left, w, hw, h⟩
  · exact lays_yieldExpression hr h
  · obtain rfl := hu.eq_of_refuseBad
    have hleft := lays_conditionalExpression hr hw
    rw [hv.same_of_markArrowStart.1] at hleft
    split at h
    next op hop =>
      simp at h
      rcases h with ⟨-, -, rfl, rfl⟩ | ⟨-, h⟩
      · exact hleft
      · obtain ⟨hlexeme, hne⟩ := lexeme_of_assignmentOp? hop
        exact spans_assignmentTo hr h hleft hlexeme hne
    next =>
      simp at h
      obtain ⟨-, rfl, rfl⟩ := h
      exact hleft

end Parser

end Adequacy
