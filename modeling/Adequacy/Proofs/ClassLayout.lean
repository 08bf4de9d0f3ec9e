import Adequacy.Proofs.FunctionLayout

namespace Adequacy

namespace Parser

variable {text : List Char} {c : Surroundings} {s t : Progress} {rule : Productions}

theorem looks_atFieldEnd (canBreak : Bool) : Looks (atFieldEnd canBreak) := by
  intro c s
  obtain ⟨e, he⟩ := looks_atStatementEnd c s
  rw [atFieldEnd, run_lexeme_bind]
  split
  · exact ⟨_, rfl⟩
  · exact ⟨_, rfl⟩
  · exact ⟨_, rfl⟩
  · split
    · exact ⟨e, he⟩
    · exact ⟨_, rfl⟩

@[simp] theorem takes_atFieldEnd {β : Type} {canBreak : Bool} {f : Bool → Parser β} {b : β} :
    Takes text c s (atFieldEnd canBreak >>= f) b t ↔
      ∃ e, (atFieldEnd canBreak).run c s = (.ok e, s) ∧ Takes text c s (f e) b t :=
  takes_bind_of_looks (looks_atFieldEnd canBreak)

@[grind →] theorem takes_classKey {key : MemberKey × Span} (hr : RulesLay text rule)
    (h : Takes text c s (classKey rule) key t) :
    Node.AllWithin text s.current.span.start t.last.stop key.1.nodes ∧
      s.current.span.start ≤ t.last.stop := by
  simp [classKey] at h
  rcases h with ⟨-, w, place, hu, -, -, rfl⟩ | ⟨-, h⟩
  · exact ⟨by simp [MemberKey.nodes], hu.of_privateName.2⟩
  · have := takes_memberKey hr h
    grind

section members

variable {start : Nat} {key : MemberKey} {keySpan : Span} {member : ClassMember}

/-- A field from an offset on that its key is behind. -/
theorem spans_field (hr : RulesLay text rule)
    (h : Takes text c s (field rule start key keySpan) member t)
    (hstart : isBoundary start text = true) (hle : start ≤ s.last.stop)
    (hkey : Node.AllWithin text start s.last.stop key.nodes) :
    member.node.Spans text start t.last.stop := by
  have hp := h
  simp [field] at hp
  rcases hp with ⟨-, ⟨-, u, hu, v, value, hv, hend, -, rfl⟩ | ⟨-, hend, -, rfl⟩⟩
  · exact h.spans_from hstart rfl rfl (by grind) (by grind) nofun trivial
  · exact h.spans_from hstart rfl rfl (by grind) (by grind) nofun trivial

/-- A method from an offset on that its key is behind. -/
theorem spans_methodOf {isAsync isGenerator : Bool} {params : Parser (List Node)}
    (hr : RulesLay text rule) (hparams : LaysAll text params)
    (h : Takes text c s (methodOf rule start key isAsync isGenerator params) member t)
    (hstart : isBoundary start text = true) (hle : start ≤ s.last.stop)
    (hkey : Node.AllWithin text start s.last.stop key.nodes) :
    member.node.Spans text start t.last.stop := by
  have hp := h
  simp [methodOf] at hp
  obtain ⟨f, hf, -, rfl⟩ := hp
  obtain ⟨hspan, hkept⟩ := spans_memberFunction hr hparams hf hstart (by grind)
  exact spans_keyed h hle hkey hspan hkept

@[grind →] theorem Takes.eq_of_noteStatic {fault : SyntaxFault} {isStatic : Option Span} {a : Unit}
    (h : Takes text c s (noteStatic fault isStatic) a t) : t = s := by
  simp [noteStatic] at h
  split at h <;> simp at h
  exact h.2

theorem spans_constructorOf {isStatic : Option Span} (hr : RulesLay text rule)
    (h : Takes text c s (constructorOf rule start isStatic) member t)
    (hstart : isBoundary start text = true) (hle : start ≤ s.last.stop) :
    member.node.Spans text start t.last.stop := by
  have hp := h
  simp [constructorOf] at hp
  obtain ⟨u, ⟨-, hu⟩, params, v, hv, w, ⟨-, hw⟩, body, x, hx, y, hy, -, rfl⟩ := hp
  have hparams := laysAll_elements (by simp) (lays_parameter hr) (lays_restElement hr) hv
  have hbody := lays_functionBody hr params false false hx
  have hf : Node.Spans text start t.last.stop (.func ⟨start, t.last.stop⟩ params body) :=
    h.spans_from hstart rfl rfl (by grind) (by grind) nofun trivial
  exact h.spans_from hstart rfl rfl hf.le (by grind) nofun trivial

theorem spans_staticBlock (hr : RulesLay text rule)
    (h : Takes text c s (staticBlock rule start) member t)
    (hstart : isBoundary start text = true) (hle : start ≤ s.last.stop) :
    member.node.Spans text start t.last.stop := by
  have hp := h
  simp [staticBlock] at hp
  obtain ⟨body, hb, -, rfl⟩ := hp
  have hbody := (lays_block hr false hb).within.mono (hle.trans hb.le.1) (Nat.le_refl _)
  obtain ⟨span, parts, rfl⟩ := exists_of_block hb
  have hparts := (Node.allLaidIn_children hbody.laid rfl).mono hbody.start_le hbody.le_stop
  have hkept := hbody.kept_between.of_fewer (Node.fewer_children fun _ => rfl)
  exact .plain rfl rfl ⟨hstart, h.fits_after.last_isBoundary, by grind⟩ hparts hkept rfl trivial

theorem spans_generatorMethod (hr : RulesLay text rule)
    (h : Takes text c s (generatorMethod rule start) member t)
    (hstart : isBoundary start text = true) (hle : start ≤ s.last.stop) :
    member.node.Spans text start t.last.stop := by
  simp [generatorMethod] at h
  obtain ⟨key, place, u, hu, -, h⟩ := h
  exact spans_methodOf hr (laysAll_parameters hr) h hstart (by grind) (by grind)

theorem spans_asyncMethod (hr : RulesLay text rule)
    (h : Takes text c s (asyncMethod rule start) member t)
    (hstart : isBoundary start text = true) (hle : start ≤ s.last.stop) :
    member.node.Spans text start t.last.stop := by
  simp [asyncMethod] at h
  have hparams := laysAll_parameters hr
  rcases h with ⟨-, u, hu, key, place, v, hv, -, h⟩ | ⟨-, key, place, v, hv, -, h⟩
  · exact spans_methodOf hr hparams h hstart (by grind) (by grind)
  · exact spans_methodOf hr hparams h hstart (by grind) (by grind)

theorem spans_accessor {isGetter : Bool} (hr : RulesLay text rule)
    (h : Takes text c s (accessor rule start isGetter keySpan) member t)
    (hstart : isBoundary start text = true) (hle : start ≤ s.last.stop) :
    member.node.Spans text start t.last.stop := by
  simp [accessor] at h
  obtain ⟨key, place, u, hu, -, h⟩ := h
  refine spans_methodOf hr ?_ h hstart (by grind) (by grind)
  split
  · exact laysAll_getterParameters hr keySpan
  · exact laysAll_setterParameters hr keySpan

theorem spans_keyedMember {isStatic : Option Span} (hr : RulesLay text rule)
    (h : Takes text c s (keyedMember rule start isStatic key keySpan) member t)
    (hstart : isBoundary start text = true) (hle : start ≤ s.last.stop)
    (hkey : Node.AllWithin text start s.last.stop key.nodes) :
    member.node.Spans text start t.last.stop := by
  simp [keyedMember] at h
  rcases h with ⟨-, ⟨-, h⟩ | ⟨-, h⟩⟩ | ⟨-, h⟩
  · exact spans_constructorOf hr h hstart hle
  · exact spans_methodOf hr (laysAll_parameters hr) h hstart hle hkey
  · grind [spans_field, spans_asyncMethod, spans_accessor]

theorem spans_classMemberFrom {isStatic : Option Span} (hr : RulesLay text rule)
    (h : Takes text c s (classMemberFrom rule start isStatic) member t)
    (hstart : isBoundary start text = true) (hle : start ≤ s.current.span.start) :
    member.node.Spans text start t.last.stop := by
  simp [classMemberFrom] at h
  rcases h with ⟨-, u, hu, v, hv, h⟩ | ⟨-, ⟨-, u, hu, h⟩ | ⟨-, key, place, u, hu, h⟩⟩
  · exact spans_staticBlock hr h hstart (by grind)
  · exact spans_generatorMethod hr h hstart (by grind)
  · exact spans_keyedMember hr h hstart (by grind) (by grind)

theorem spans_classMember (hr : RulesLay text rule)
    (h : Takes text c s (classMember rule) member t) :
    member.node.Spans text s.current.span.start t.last.stop := by
  have hstart := h.fits.start_isBoundary
  simp [classMember] at h
  rcases h with ⟨-, u, hu, ⟨-, h⟩ | ⟨-, ⟨-, h⟩ | ⟨-, ⟨-, h⟩ | ⟨-, h⟩⟩⟩⟩ | ⟨-, h⟩
  · exact spans_staticBlock hr h hstart (by grind)
  · exact spans_methodOf hr (laysAll_parameters hr) h hstart (by grind) (by simp [MemberKey.nodes])
  · exact spans_classMemberFrom hr h hstart (by grind)
  · exact spans_field hr h hstart (by grind) (by simp [MemberKey.nodes])
  · exact spans_classMemberFrom hr h hstart (Nat.le_refl _)

end members

theorem allWithin_classMembers_go {fuel lo : Nat} {hasConstructor : Bool} {read ns : List Node}
    (hr : RulesLay text rule)
    (h : Takes text c s (classMembers.go rule fuel hasConstructor read) ns t)
    (hlo : lo ≤ s.current.span.start) (hread : Node.AllWithin text lo s.last.stop read) :
    Node.AllWithin text lo t.last.stop ns := by
  induction fuel generalizing read hasConstructor s with
  | zero =>
    simp [classMembers.go] at h
    grind
  | succ fuel ih =>
    simp [classMembers.go] at h
    rcases h with ⟨-, -, rfl, rfl⟩ | ⟨-, ⟨-, u, hu, h⟩ | ⟨-, member, u, hu, -, h⟩⟩
    · simpa using hread
    · exact ih h (by grind) (by grind)
    · have hmember := spans_classMember hr hu
      exact ih h (by grind) (by grind)

theorem laysAll_classMembers (hr : RulesLay text rule) : LaysAll text (classMembers rule) := by
  intro c s ns t h
  simp [classMembers] at h
  exact allWithin_classMembers_go hr h (Nat.le_refl _) (by simp)

theorem lays_classFrom (hr : RulesLay text rule) (isDeclaration needsName : Bool) :
    Lays text (classFrom rule isDeclaration needsName) := by
  intro c s n t h
  have hp := h
  simp [classFrom] at hp
  have hmembers := laysAll_classMembers hr
  obtain ⟨u, ⟨-, hu⟩, v, hv, hp⟩ := hp
  rcases hp with ⟨-, w, hw, x, heritage, hx, -, hp⟩ | ⟨-, hp⟩
  · obtain ⟨y, ⟨-, hy⟩, members, z, hz, ⟨-, hend⟩, -, rfl⟩ := hp
    exact h.spans rfl rfl (by grind) (by grind) nofun trivial
  · obtain ⟨y, ⟨-, hy⟩, members, z, hz, ⟨-, hend⟩, -, rfl⟩ := hp
    exact h.spans rfl rfl (by grind) (by grind) nofun trivial

end Parser

end Adequacy
