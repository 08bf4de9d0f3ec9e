import Adequacy.Proofs.PrimaryLayout

namespace Adequacy

namespace Parser

variable {text : List Char} {c : Surroundings} {s t : Progress} {rule : Productions}

theorem allWithin_arguments_go {fuel lo : Nat} {read ns : List Node} (hr : RulesLay text rule)
    (h : Takes text c s (arguments.go rule fuel read) ns t) (hlo : lo ≤ s.current.span.start)
    (hread : Node.AllWithin text lo s.last.stop read) : Node.AllWithin text lo t.last.stop ns := by
  induction fuel generalizing read s with
  | zero =>
    simp [arguments.go] at h
    grind
  | succ fuel ih =>
    simp [arguments.go] at h
    rcases h with ⟨-, -, rfl, rfl⟩ | ⟨-, e, u, hu, h⟩
    · simpa using hread
    · have he := lays_maybeSpread hr hu
      rcases h with ⟨-, -, rfl, rfl⟩ | ⟨-, v, ⟨-, hv⟩, h⟩
      · grind
      · exact ih h (by grind) (by grind)

/-- Arguments stand behind a parenthesis. -/
theorem takes_arguments {ns : List Node} (hr : RulesLay text rule)
    (h : Takes text c s (arguments rule) ns t) :
    Node.AllWithin text (s.current.span.start + 1) t.last.stop ns ∧
      s.current.span.start < t.last.stop := by
  simp [arguments] at h
  obtain ⟨u, ⟨hopen, hu⟩, v, hv, ⟨-, hend⟩, -⟩ := h
  have hlt := hu.lt_of_punctuator hopen (by decide)
  have hargs := allWithin_arguments_go hr hv (Nat.le_refl _) (by simp)
  exact ⟨hargs.mono (by grind) (by grind), by grind⟩

theorem laysAll_arguments (hr : RulesLay text rule) : LaysAll text (arguments rule) :=
  fun _ _ _ _ h => (takes_arguments hr h).1.mono (Nat.le_succ _) (Nat.le_refl _)

/-- An optional link has its mark behind an offset, with room for the dot in front of another one. -/
def Marked (text : List Char) (isOptional : Bool) (offset stop : Nat) : Prop :=
  isOptional = true → ∃ mark, Behind text offset "?" mark ∧ mark + 1 ≤ stop

theorem marked_false {offset stop : Nat} : Marked text false offset stop := nofun

theorem Marked.mono {isOptional : Bool} {offset stop stop' : Nat}
    (h : Marked text isOptional offset stop) (hle : stop ≤ stop') :
    Marked text isOptional offset stop' := by
  intro ho
  obtain ⟨mark, hmark, hroom⟩ := h ho
  exact ⟨mark, hmark, hroom.trans hle⟩

theorem Marked.lt {offset stop : Nat} (h : Marked text true offset stop) : offset < stop := by
  obtain ⟨mark, hmark, hroom⟩ := h rfl
  have := hmark.le
  omega

section subscripts

variable {base n : Node} {lo p : Nat} {isOptional noCall : Bool}

/-- The mark of an optional link stands behind what is linked to. -/
theorem marked_of_optionalMark (h : Takes text c s optionalMark isOptional t) :
    Marked text isOptional s.last.stop t.last.stop ∧ (isOptional = false → t = s) := by
  have hp := h
  simp [optionalMark] at hp
  rcases hp with ⟨⟨hmark, -⟩, u, hu, ⟨hdot, ht⟩, -, rfl⟩ | ⟨-, -, rfl, rfl⟩
  · have hone := (ht.fits.isBoundary_add 1 (by decide) fun cs hw => by
      rw [hdot] at hw
      exact ⟨cs, [], by simp, by rw [show cs = ".".toList from hw]; decide⟩).2
    exact ⟨fun _ => ⟨_, h.fits.behind (.inl hmark), by grind⟩, nofun⟩
  · exact ⟨marked_false, fun _ => rfl⟩

theorem spans_accessOf {index : Option Node}
    (h : Takes text c s (accessOf base isOptional index) n t) (hb : base.Spans text lo p)
    (hp : p < s.last.stop) (hmark : Marked text isOptional p s.last.stop)
    (hindex : Node.AllWithin text (p + 1) s.last.stop index.toList) : n.Spans text lo t.last.stop := by
  have hn := h
  simp [accessOf] at hn
  obtain ⟨-, -, rfl, rfl⟩ := hn
  split
  · refine h.spans_from hb.start_isBoundary hb.start_eq rfl (by grind) (by grind) (by grind) ?_
    cases isOptional with
    | false => trivial
    | true =>
      rw [← hb.stop_eq] at hmark
      exact hmark rfl
  · exact h.spans_from hb.start_isBoundary hb.start_eq rfl (by grind) (by grind) nofun trivial

theorem spans_callOf {args : List Node} (h : Takes text c s (callOf base isOptional args) n t)
    (hb : base.Spans text lo p) (hp : p < s.last.stop)
    (hmark : Marked text isOptional p s.last.stop)
    (hargs : Node.AllWithin text (p + 1) s.last.stop args) : n.Spans text lo t.last.stop := by
  have hn := h
  simp [callOf] at hn
  obtain ⟨-, rfl, rfl⟩ := hn
  split
  · refine h.spans_from hb.start_isBoundary hb.start_eq rfl (by grind) (by grind) (by grind) ?_
    cases isOptional with
    | false => trivial
    | true =>
      rw [← hb.stop_eq] at hmark
      exact hmark rfl
  · exact h.spans_from hb.start_isBoundary hb.start_eq rfl (by grind) (by grind) nofun trivial

theorem spans_taggedTemplate? {isChain : Bool} (hr : RulesLay text rule)
    (h : Takes text c s (taggedTemplate? rule base isChain) (some n) t)
    (hb : base.Spans text lo p) (hp : p ≤ s.last.stop) : n.Spans text lo t.last.stop := by
  have hn := h
  simp [taggedTemplate?] at hn
  split at hn
  · simp at hn
    obtain ⟨u, hu, -, -, rfl⟩ := hn
    have hu := lays_templateLiteral hr true hu
    exact h.spans_from hb.start_isBoundary hb.start_eq rfl (by grind) (by grind) nofun trivial
  · simp at hn

theorem eq_of_taggedTemplate? {isChain : Bool}
    (h : Takes text c s (taggedTemplate? rule base isChain) none t) : t = s := by
  simp [taggedTemplate?] at h
  split at h
  · simp at h
  · simp at h
    exact h.2

theorem spans_link? (hr : RulesLay text rule)
    (h : Takes text c s (link? rule noCall base isOptional) (some n) t)
    (hb : base.Spans text lo p) (hp : p ≤ s.last.stop)
    (hmark : Marked text isOptional p s.last.stop) : n.Spans text lo t.last.stop := by
  simp [link?] at h
  rcases h with ⟨hopen, u, hu, index, v, hv, w, ⟨-, hw⟩, h⟩ | ⟨-, ⟨-, args, u, hu, h⟩ | ⟨-, h⟩⟩
  · have hlt := hu.lt_of_punctuator hopen (by decide)
    exact spans_accessOf h hb (by grind) (hmark.mono (by grind)) (by grind)
  · obtain ⟨hargs, hlt⟩ := takes_arguments hr hu
    exact spans_callOf h hb (by grind) (hmark.mono (by grind)) (by grind)
  · rcases h with ⟨ho, u, hu, h⟩ | ⟨-, ⟨hdot, u, hu, v, hv, h⟩ | ⟨-, -, h⟩⟩
    · rw [ho] at hmark
      have hlt := hmark.lt
      exact spans_accessOf h hb (by grind) (fun _ => hmark.mono (by grind) rfl) (by simp)
    · have hlt := hu.lt_of_punctuator hdot (by decide)
      exact spans_accessOf h hb (by grind) (hmark.mono (by grind)) (by simp)
    · exact spans_taggedTemplate? hr h hb hp

theorem eq_of_link? (h : Takes text c s (link? rule noCall base isOptional) none t) :
    isOptional = false ∧ t = s := by
  simp [link?] at h
  exact ⟨h.2.2.1, eq_of_taggedTemplate? h.2.2.2.2.2⟩

theorem takes_subscript? {found : Option Node} (hr : RulesLay text rule)
    (h : Takes text c s (subscript? rule noCall base) found t) (hb : base.Spans text lo s.last.stop) :
    (∀ n ∈ found, n.Spans text lo t.last.stop) ∧ (found = none → t = s) := by
  have hlink {isOptional : Bool} {u : Progress} (hmark : Marked text isOptional s.last.stop u.last.stop)
      (hsame : isOptional = false → u = s) (hle : s.last.stop ≤ u.last.stop)
      (h : Takes text c u (link? rule noCall base isOptional) found t) :
      (∀ n ∈ found, n.Spans text lo t.last.stop) ∧ (found = none → t = s) := by
    cases found with
    | none =>
      obtain ⟨ho, rfl⟩ := eq_of_link? h
      exact ⟨nofun, fun _ => hsame ho⟩
    | some n =>
      refine ⟨fun m hm => ?_, nofun⟩
      cases hm
      exact spans_link? hr h hb hle hmark
  simp [subscript?] at h
  rcases h with ⟨-, h⟩ | ⟨-, ⟨u, hu, h⟩ | ⟨u, hu, h⟩⟩
  · exact hlink marked_false (fun _ => rfl) (Nat.le_refl _) h
  · obtain ⟨hmark, hsame⟩ := marked_of_optionalMark hu
    exact hlink hmark hsame (by grind) h
  · obtain ⟨hmark, hsame⟩ := marked_of_optionalMark hu
    exact hlink hmark hsame (by grind) h

theorem spans_subscripts_go {fuel : Nat} (hr : RulesLay text rule)
    (h : Takes text c s (subscripts.go rule noCall fuel base) n t)
    (hb : base.Spans text lo s.last.stop) : n.Spans text lo t.last.stop := by
  induction fuel generalizing base s with
  | zero =>
    simp [subscripts.go] at h
    grind
  | succ fuel ih =>
    simp [subscripts.go] at h
    obtain ⟨found, u, hu, h⟩ := h
    obtain ⟨hspans, hsame⟩ := takes_subscript? hr hu hb
    cases found with
    | none =>
      simp at h
      obtain ⟨-, rfl, rfl⟩ := h
      rw [hsame rfl]
      exact hb
    | some m => exact ih h (hspans m rfl)

/-- The accesses and calls behind an expression go on with it. -/
theorem spans_subscripts (hr : RulesLay text rule)
    (h : Takes text c s (subscripts rule noCall base) n t)
    (hb : base.Spans text lo s.last.stop) : n.Spans text lo t.last.stop := by
  simp [subscripts] at h
  exact spans_subscripts_go hr h hb

end subscripts

@[grind →] theorem Takes.same_of_markModule {a : Unit} (h : Takes text c s markModule a t) :
    t.current = s.current ∧ t.last = s.last := by
  have hrun := h.run
  cases hrun
  exact ⟨rfl, rfl⟩

section members

variable {start : Nat} {n : Node} {noCall : Bool}

theorem spans_importCall (hr : RulesLay text rule)
    (h : Takes text c s (importCall rule start noCall) n t) (hstart : isBoundary start text = true)
    (hle : start ≤ s.last.stop) : n.Spans text start t.last.stop := by
  simp [importCall] at h
  obtain ⟨-, args, u, hu, h⟩ := h
  have hargs := laysAll_arguments hr hu
  exact spans_subscripts hr h (hu.spans_from hstart rfl rfl (by grind) (by grind) nofun trivial)

theorem lays_importExpression (hr : RulesLay text rule) (noCall : Bool) :
    Lays text (importExpression rule noCall) := by
  intro c s n t h
  have hstart := h.fits.start_isBoundary
  simp [importExpression] at h
  obtain ⟨u, ⟨-, hu⟩, ⟨-, v, hv, w, hw, word, place, x, hx, h⟩ | ⟨-, h⟩⟩ := h
  · rcases h with ⟨-, h⟩ | ⟨-, -, h⟩
    · exact spans_subscripts hr h (hx.spans_from hstart rfl rfl (by grind) (by grind) nofun trivial)
    · exact spans_importCall hr h hstart (by grind)
  · exact spans_importCall hr h hstart (by grind)

theorem spans_newTarget (hr : RulesLay text rule)
    (h : Takes text c s (newTarget rule start) n t) (hstart : isBoundary start text = true)
    (hle : start ≤ s.last.stop) : n.Spans text start t.last.stop := by
  simp [newTarget] at h
  obtain ⟨-, u, hu, -, h⟩ := h
  exact spans_subscripts hr h (hu.spans_from hstart rfl rfl (by grind) (by grind) nofun trivial)

theorem Takes.eq_of_checkCallee {callee : Node} {a : Unit}
    (h : Takes text c s (checkCallee callee) a t) : t = s := by
  unfold checkCallee at h
  split at h <;> simp at h
  exact h.2

end members

section heads

variable {n : Node}

/-- Whatever the parser reads is no arrow function. -/
abbrev ReadsNoArrow (p : Parser Node) : Prop := p.Answers (·.isArrow = false)

theorem isArrow_of_takes {p : Parser Node} (hp : ReadsNoArrow p) (h : Takes text c s p n t) :
    n.isArrow = false := hp c s n t h.run

theorem answers_fail {α : Type} {P : α → Prop} {fault : SyntaxFault} {span : Span} :
    (fail fault span : Parser α).Answers P := .bind fun _ => .throw

theorem answers_failHere {α : Type} {P : α → Prop} {fault : SyntaxFault} :
    (failHere fault : Parser α).Answers P := .bind fun _ => answers_fail

theorem answers_unexpected {α : Type} {P : α → Prop} {wanted : String} :
    (unexpected wanted : Parser α).Answers P := .bind fun _ => answers_failHere

theorem readsNoArrow_name (isBound : Bool) : ReadsNoArrow (name isBound) := by
  unfold name
  repeat' first
    | exact .pure rfl
    | exact answers_failHere
    | refine .bind fun _ => ?_
    | split

theorem readsNoArrow_reference : ReadsNoArrow reference := by
  unfold reference
  repeat' first
    | exact .pure rfl
    | exact readsNoArrow_name _
    | refine .bind fun _ => ?_
    | split

theorem readsNoArrow_takeLiteral (value : Literal) : ReadsNoArrow (takeLiteral value) := by
  unfold takeLiteral
  repeat' first
    | exact .pure rfl
    | refine .bind fun _ => ?_
    | split

theorem readsNoArrow_takeOther (form : Form) : ReadsNoArrow (takeOther form) :=
  .bind fun _ => .bind fun _ => .pure rfl

theorem readsNoArrow_privateReference : ReadsNoArrow privateReference :=
  .bind fun _ => .bind fun _ => .bind fun _ => .bind fun _ => .pure rfl

theorem readsNoArrow_templateLiteral (isTagged : Bool) :
    ReadsNoArrow (templateLiteral rule isTagged) :=
  .bind fun _ => .bind fun _ => .bind fun _ => .bind fun _ => .pure rfl

theorem readsNoArrow_regexLiteral : ReadsNoArrow regexLiteral := by
  unfold regexLiteral
  repeat' first
    | exact .pure rfl
    | exact .throw
    | exact answers_failHere
    | refine .bind fun _ => ?_
    | split

theorem readsNoArrow_arrayLiteral : ReadsNoArrow (arrayLiteral rule) := by
  unfold arrayLiteral
  repeat' first
    | exact .pure rfl
    | refine .bind fun _ => ?_

theorem readsNoArrow_objectLiteral : ReadsNoArrow (objectLiteral rule) := by
  unfold objectLiteral
  repeat' first
    | exact .pure rfl
    | refine .bind fun _ => ?_

theorem readsNoArrow_function (isDeclaration needsName : Bool) :
    ReadsNoArrow (function rule isDeclaration needsName) := by
  unfold function functionFrom
  repeat' first
    | exact .pure rfl
    | refine .bind fun _ => ?_

theorem readsNoArrow_classFrom (isDeclaration needsName : Bool) :
    ReadsNoArrow (classFrom rule isDeclaration needsName) := by
  unfold classFrom
  refine .withReader ?_
  repeat' first
    | exact .pure rfl
    | refine .bind fun _ => ?_
    | split

theorem readsNoArrow_parenGroup (start : Nat) (items : List Node) :
    ReadsNoArrow (parenGroup start items) := by
  unfold parenGroup
  repeat' first
    | exact .pure rfl
    | exact answers_fail
    | refine .bind fun _ => ?_
    | split

theorem isArrow_of_parenOrArrow {async : Option Span}
    (h : Takes text c s (parenOrArrow rule false async) n t) : n.isArrow = false := by
  simp [parenOrArrow, parenArrow] at h
  obtain ⟨items, comma, u, -, -, v, -, h⟩ := h
  split at h
  · simp at h
    obtain ⟨-, rfl, -⟩ := h
    rfl
  · exact isArrow_of_takes (readsNoArrow_parenGroup _ _) h

theorem isArrow_of_nameOrArrow (h : Takes text c s (nameOrArrow rule false) n t) :
    n.isArrow = false := by
  simp [nameOrArrow] at h
  exact isArrow_of_takes readsNoArrow_reference h.1

/-- An arrow function begins only where the head of one is expected. -/
theorem isArrow_of_primary (h : Takes text c s (primary rule) n t)
    (hhead : s.arrowStart ≠ some s.current.span.start) : n.isArrow = false := by
  have hno : (s.arrowStart == some s.current.span.start) = false := by simpa using hhead
  simp [primary, hno] at h
  split at h
  · simp at h
  · exact isArrow_of_takes (readsNoArrow_takeLiteral _) h
  · exact isArrow_of_takes (readsNoArrow_takeLiteral _) h
  · exact isArrow_of_takes (readsNoArrow_takeLiteral _) h
  · exact isArrow_of_takes (readsNoArrow_templateLiteral _) h
  · exact isArrow_of_takes readsNoArrow_regexLiteral h
  · exact isArrow_of_takes readsNoArrow_regexLiteral h
  · exact isArrow_of_takes readsNoArrow_arrayLiteral h
  · exact isArrow_of_takes readsNoArrow_objectLiteral h
  · exact isArrow_of_parenOrArrow h
  · exact isArrow_of_takes readsNoArrow_privateReference h
  · exact isArrow_of_takes (readsNoArrow_takeOther _) h
  · exact isArrow_of_takes (readsNoArrow_takeLiteral _) h
  · exact isArrow_of_takes (readsNoArrow_takeLiteral _) h
  · exact isArrow_of_takes (readsNoArrow_takeLiteral _) h
  · exact isArrow_of_takes (readsNoArrow_function _ _) h
  · exact isArrow_of_takes (readsNoArrow_classFrom _ _) h
  · exact isArrow_of_nameOrArrow h
  · simp [asyncPrimary, takes_bind_of_looks looks_atAsyncFunction] at h
    rcases h with ⟨-, h⟩ | ⟨-, h⟩
    · exact isArrow_of_nameOrArrow h
    · exact isArrow_of_takes (readsNoArrow_function _ _) h
  · simp at h
    exact isArrow_of_nameOrArrow h.2

/-- Whatever link the parser finds is no arrow function. -/
abbrev FindsNoArrow (p : Parser (Option Node)) : Prop := p.Answers fun found =>
  ∀ n ∈ found, n.isArrow = false

theorem findsNoArrow_map {p : Parser Node} (hp : ReadsNoArrow p) : FindsNoArrow (some <$> p) :=
  .bind_of hp fun n hn => .pure fun m hm => by
    cases hm
    exact hn

theorem readsNoArrow_accessOf {base : Node} {isOptional : Bool} {index : Option Node} :
    ReadsNoArrow (accessOf base isOptional index) := by
  unfold accessOf
  repeat' first
    | exact answers_fail
    | exact .pure rfl
    | refine .bind fun _ => ?_
    | split

theorem readsNoArrow_callOf {base : Node} {isOptional : Bool} {args : List Node} :
    ReadsNoArrow (callOf base isOptional args) := by
  unfold callOf
  refine .bind fun _ => ?_
  split <;> exact .pure rfl

theorem findsNoArrow_taggedTemplate? {base : Node} {isChain : Bool} :
    FindsNoArrow (taggedTemplate? rule base isChain) := by
  unfold taggedTemplate?
  repeat' first
    | exact .pure fun m hm => by cases hm <;> rfl
    | refine .bind fun _ => ?_
    | split

theorem findsNoArrow_subscript? {noCall : Bool} {base : Node} :
    FindsNoArrow (subscript? rule noCall base) := by
  unfold subscript? link?
  repeat' first
    | exact findsNoArrow_map readsNoArrow_accessOf
    | exact findsNoArrow_map readsNoArrow_callOf
    | exact findsNoArrow_taggedTemplate?
    | refine .bind fun _ => ?_
    | split
    | dsimp only

theorem readsNoArrow_subscripts_go {noCall : Bool} {base : Node} {fuel : Nat}
    (hb : base.isArrow = false) : ReadsNoArrow (subscripts.go rule noCall fuel base) := by
  induction fuel generalizing base with
  | zero => exact .pure hb
  | succ fuel ih =>
    refine .bind_of findsNoArrow_subscript? fun found hfound => ?_
    cases found with
    | none => exact .pure hb
    | some n => exact ih (hfound n rfl)

theorem readsNoArrow_subscripts {noCall : Bool} {base : Node} (hb : base.isArrow = false) :
    ReadsNoArrow (subscripts rule noCall base) :=
  .bind fun _ => readsNoArrow_subscripts_go hb

theorem readsNoArrow_newTarget (start : Nat) : ReadsNoArrow (newTarget rule start) := by
  unfold newTarget
  repeat' first
    | exact readsNoArrow_subscripts rfl
    | refine .bind fun _ => ?_
    | split

theorem readsNoArrow_importExpression (noCall : Bool) :
    ReadsNoArrow (importExpression rule noCall) := by
  unfold importExpression importCall
  repeat' first
    | exact readsNoArrow_subscripts rfl
    | exact answers_unexpected
    | refine .bind fun _ => ?_
    | split

/-- No head of an arrow function is expected behind `new`. -/
theorem Takes.arrowStart_ne_of_new {a : Unit} (h : Takes text c s advance a t)
    (hs : s.current.lexeme = .word "new") : t.arrowStart ≠ some t.current.span.start := by
  have harrow : t.arrowStart = s.arrowStart := by
    have hrun := h.run
    cases hrun
    rfl
  have hone := (h.fits.isBoundary_add 1 (by decide) fun cs hw => by
    rw [hs] at hw
    rw [hw (by decide)]
    exact ⟨['n'], ['e', 'w'], rfl, by decide⟩).2
  intro hhead
  rw [harrow] at hhead
  have hle := h.fits.arrow_le _ hhead
  have hlast := h.last_eq
  grind

theorem spans_construction {start : Nat} (hr : RulesLay text rule)
    (h : Takes text c s (construction rule start) n t) (hstart : isBoundary start text = true)
    (hle : start < s.last.stop) (hhead : s.arrowStart ≠ some s.current.span.start) :
    n.Spans text start t.last.stop ∧ n.isArrow = false := by
  simp [construction] at h
  obtain ⟨callee, u, hu, h⟩ := h
  obtain ⟨hcallee, harrow⟩ := hr.newCallee hu
  rcases h with ⟨ha, -⟩ | ⟨-, v, hv, h⟩
  · simp [harrow hhead] at ha
  · obtain rfl := hv.eq_of_checkCallee
    rcases h with ⟨-, args, w, hw, h⟩ | ⟨-, -, rfl, rfl⟩
    · have hargs := laysAll_arguments hr hw
      have hbase : Node.Spans text start w.last.stop
          (.construct ⟨start, w.last.stop⟩ callee (some args)) :=
        hw.spans_from hstart rfl rfl (by grind) (by grind) (by grind) trivial
      exact ⟨spans_subscripts hr h hbase, isArrow_of_takes (readsNoArrow_subscripts rfl) h⟩
    · exact ⟨hu.spans_from hstart rfl rfl (by grind) (by grind) (by grind) trivial, rfl⟩

theorem spans_newCallee (hr : RulesLay text rule) (h : Takes text c s (newCallee rule) n t) :
    n.Spans text s.current.span.start t.last.stop ∧
      (s.arrowStart ≠ some s.current.span.start → n.isArrow = false) := by
  have hstart := h.fits.start_isBoundary
  simp [newCallee] at h
  rcases h with ⟨hnew, u, hu, ⟨-, v, hv, h⟩ | ⟨-, h⟩⟩ | ⟨-, h⟩
  · exact ⟨spans_newTarget hr h hstart (by grind), fun _ => isArrow_of_takes (readsNoArrow_newTarget _) h⟩
  · have hlt := hu.lt_of_keyword hnew (by decide)
    obtain ⟨hspans, hplain⟩ := spans_construction hr h hstart hlt (hu.arrowStart_ne_of_new hnew)
    exact ⟨hspans, fun _ => hplain⟩
  · rcases h with ⟨-, e, u, hu, h⟩ | ⟨-, ⟨-, h⟩ | ⟨-, e, u, hu, ⟨-, -, rfl, rfl⟩ | ⟨hplain, h⟩⟩⟩
    · have he := lays_takeOther .super hu
      have hplain := isArrow_of_takes (readsNoArrow_takeOther _) hu
      exact ⟨spans_subscripts hr h he, fun _ => isArrow_of_takes (readsNoArrow_subscripts hplain) h⟩
    · exact ⟨lays_importExpression hr true h, fun _ => isArrow_of_takes (readsNoArrow_importExpression _) h⟩
    · exact ⟨lays_primary hr hu, isArrow_of_primary hu⟩
    · have he := lays_primary hr hu
      exact ⟨spans_subscripts hr h he, fun _ => isArrow_of_takes (readsNoArrow_subscripts hplain) h⟩

end heads

theorem lays_leftHandSide (hr : RulesLay text rule) : Lays text (leftHandSide rule) := by
  intro c s n t h
  simp [leftHandSide] at h
  rcases h with ⟨-, e, u, hu, h⟩ | ⟨-, ⟨-, h⟩ | ⟨-, callee, u, hu, ⟨-, h⟩ | ⟨-, -, rfl, rfl⟩⟩⟩
  · exact spans_subscripts hr h (lays_takeOther .super hu)
  · exact lays_importExpression hr false h
  · exact spans_subscripts hr h (hr.newCallee hu).1
  · exact (hr.newCallee hu).1

end Parser

end Adequacy
