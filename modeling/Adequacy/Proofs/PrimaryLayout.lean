import Adequacy.Proofs.ClassLayout

namespace Adequacy

namespace Parser

variable {text : List Char} {c : Surroundings} {s t : Progress} {rule : Productions}

theorem lays_maybeSpread (hr : RulesLay text rule) : Lays text (maybeSpread rule) := by
  intro c s n t h
  have hp := h
  simp [maybeSpread] at hp
  rcases hp with ⟨-, u, hu, e, he, -, rfl⟩ | ⟨-, he⟩
  · exact h.spans rfl rfl (by grind) (by grind) nofun trivial
  · exact spans_assignment hr he

@[grind →] theorem Takes.same_of_noteTrailingComma {start : Nat} {comma : Option Span} {a : Unit}
    (h : Takes text c s (noteTrailingComma start comma) a t) :
    t.current = s.current ∧ t.last = s.last := by
  have hrun := h.run
  cases hrun
  exact ⟨rfl, rfl⟩

theorem lays_arrayLiteral (hr : RulesLay text rule) : Lays text (arrayLiteral rule) := by
  intro c s n t h
  have hp := h
  simp [arrayLiteral] at hp
  obtain ⟨u, hu, parts, v, hv, ⟨hclose, hend⟩, -, rfl⟩ := hp
  have hlt := hend.lt_of_punctuator hclose (by decide)
  have hparts := allWithin_collect hv fun s n t h => by
    simp at h
    have hspread := lays_maybeSpread hr
    have hhole : Lays text hole := lays_hole
    grind
  exact h.spans rfl rfl (by grind) (by grind) (by grind) trivial

section object

variable {start : Nat} {key : MemberKey} {n : Node}

theorem spans_objectMethod {isAsync isGenerator : Bool} {params : Parser (List Node)}
    (hr : RulesLay text rule) (hparams : LaysAll text params)
    (h : Takes text c s (objectMethod rule start key isAsync isGenerator params) n t)
    (hstart : isBoundary start text = true) (hle : start ≤ s.last.stop)
    (hkey : Node.AllWithin text start s.last.stop key.nodes) : n.Spans text start t.last.stop := by
  have hp := h
  simp [objectMethod] at hp
  obtain ⟨f, hf, -, rfl⟩ := hp
  obtain ⟨hspan, hkept⟩ := spans_memberFunction hr hparams hf hstart (by grind)
  exact spans_keyed h hle hkey hspan hkept

theorem spans_wordMember {word : String} {place : Span} (hr : RulesLay text rule)
    (h : Takes text c s (wordMember rule start word place) n t)
    (hname : Node.Spans text start s.last.stop (.name place word)) :
    n.Spans text start t.last.stop := by
  have hp := h
  simp [wordMember] at hp
  have hstart := hname.start_isBoundary
  have hle := hname.le
  have hparams := laysAll_parameters hr
  rcases hp with ⟨-, ⟨-, ⟨-, u, hu, value, hv, -, rfl⟩ | ⟨-, -, rfl, rfl⟩⟩ | ⟨-, hp⟩⟩
  · exact h.spans_from hstart rfl rfl (by grind) (by grind) nofun trivial
  · exact h.spans_from hstart rfl rfl hle (by grind) nofun trivial
  · rcases hp with ⟨-, ⟨-, u, hu, key, place, v, hv, hm⟩ | ⟨-, key, place, v, hv, hm⟩⟩ |
      ⟨-, -, key, place, v, hv, hm⟩
    · exact spans_objectMethod hr hparams hm hstart (by grind) (by grind)
    · exact spans_objectMethod hr hparams hm hstart (by grind) (by grind)
    · refine spans_objectMethod hr ?_ hm hstart (by grind) (by grind)
      split
      · exact laysAll_getterParameters hr place
      · exact laysAll_setterParameters hr place

theorem lays_objectMember (hr : RulesLay text rule) : Lays text (objectMember rule) := by
  intro c s n t h
  have hp := h
  have hstart := h.fits.start_isBoundary
  have hparams := laysAll_parameters hr
  simp [objectMember] at hp
  rcases hp with ⟨-, hp⟩ | ⟨-, ⟨-, u, hu, key, place, v, hv, hm⟩ | ⟨-, key, place, u, hu, hp⟩⟩
  · exact lays_maybeSpread hr hp
  · exact spans_objectMethod hr hparams hm hstart (by grind) (by grind)
  · rcases hp with ⟨-, v, hv, value, hvalue, -, rfl⟩ | ⟨-, ⟨-, hm⟩ | ⟨-, hm⟩⟩
    · exact h.spans rfl rfl (by grind) (by grind) nofun trivial
    · exact spans_objectMethod hr hparams hm hstart (by grind) (by grind)
    · split at hm
      next word => exact spans_wordMember hr hm (spans_keyName hr hu word)
      next => simp at hm

theorem lays_objectLiteral (hr : RulesLay text rule) : Lays text (objectLiteral rule) := by
  intro c s n t h
  have hp := h
  simp [objectLiteral] at hp
  obtain ⟨u, hu, parts, comma, v, hv, w, hw, -, rfl⟩ := hp
  have hparts := allWithin_members (lays_objectMember hr) hv
  have hnone := noneSpans_members (lays_objectMember hr) hv
  refine h.spans rfl rfl (by grind) (by grind) (fun hmut => ?_) trivial
  cases parts with
  | nil => cases hmut
  | cons part parts => grind

end object

@[grind →] theorem Takes.eq_of_checkEscapes {bad : Option SyntaxError} {isTagged : Bool} {a : Unit}
    (h : Takes text c s (checkEscapes bad isTagged) a t) : t = s := by
  simp [checkEscapes] at h
  split at h <;> simp at h
  exact h.2

/-- Template text and the interpolations in it, from an offset on that its first segment stands
at. -/
theorem segments_of_go {fuel lo : Nat} (base : Nat) {isTagged : Bool} {read segments : List String}
    {readValues values : List Node} (hr : RulesLay text rule)
    (h : Takes text c s (templateLiteral.go rule isTagged fuel read readValues)
      (segments, values) t)
    (hbase : ∀ raw bad isLast, s.current.lexeme = .templateText raw bad isLast →
      base + Progress.templateSize raw isLast ≤ s.current.span.stop)
    (hlo : lo ≤ s.current.span.start) (hread : Node.AllWithin text lo s.last.stop readValues) :
    Node.AllWithin text lo t.last.stop values ∧ s.current.span.start ≤ t.last.stop ∧
      ∃ laterSegments laterValues, segments = read.reverse ++ laterSegments ∧
        values = readValues.reverse ++ laterValues ∧
        Segments text base laterSegments laterValues t.last.stop := by
  induction fuel generalizing base read readValues s with
  | zero => simp [templateLiteral.go] at h
  | succ fuel ih =>
    simp [templateLiteral.go] at h
    split at h
    next raw bad isLast hl =>
      simp at h
      obtain ⟨u, hu, v, hv, h⟩ := h
      have htext := hu.fits.isTemplateText hl
      obtain rfl := hu.eq_of_checkEscapes
      have hroom := hbase raw bad isLast hl
      have hlast := hv.last_eq
      rcases h with ⟨rfl, -, ⟨rfl, rfl⟩, rfl⟩ | ⟨rfl, value, w, hw, hclose, x, hx, h⟩
      · refine ⟨by grind, by grind, [raw], [], rfl, by simp, .last htext ?_⟩
        rw [hlast]
        simpa [Progress.templateSize, Nat.add_assoc] using hroom
      · have hvalue := spans_expression hr hw
        obtain ⟨rfl, hstart, hplace⟩ := hx.of_rescan
        obtain ⟨hall, -, later, laterValues, rfl, rfl, hlater⟩ := ih _ h
          (fun raw bad isLast hl => Nat.le_of_eq (hw.fits_after.stop_of_template hl hclose).symm)
          (by grind) (by grind)
        refine ⟨hall, by grind, raw :: later, value :: laterValues, by simp, by simp, .more htext ?_ ?_ hlater⟩
        · rw [hvalue.start_eq]
          have := hv.le
          simp [Progress.templateSize] at hroom
          grind
        · rw [hvalue.stop_eq]
          exact hw.fits_after.behind (.inl hclose)
    next => simp at h
    next => simp at h

theorem exists_templateText_of_go {fuel : Nat} {isTagged : Bool} {read : List String}
    {readValues : List Node} {found : List String × List Node}
    (h : Takes text c s (templateLiteral.go rule isTagged fuel read readValues) found t) :
    ∃ raw bad isLast, s.current.lexeme = .templateText raw bad isLast := by
  cases fuel with
  | zero => simp [templateLiteral.go] at h
  | succ fuel =>
    simp [templateLiteral.go] at h
    split at h
    next raw bad isLast hl => exact ⟨raw, bad, isLast, hl⟩
    next => simp at h
    next => simp at h

theorem lays_templateLiteral (hr : RulesLay text rule) (isTagged : Bool) :
    Lays text (templateLiteral rule isTagged) := by
  intro c s n t h
  have hp := h
  simp [templateLiteral] at hp
  obtain ⟨segments, values, hgo, -, rfl⟩ := hp
  obtain ⟨raw, bad, isLast, hl⟩ := exists_templateText_of_go hgo
  obtain ⟨hopen, -⟩ := h.fits.isBoundary_add 1 (by decide) fun cs hw => by
    rw [hl] at hw
    obtain ⟨-, mark, hmark, rfl⟩ := hw
    exact ⟨[mark], _, rfl, by simp [hmark]⟩
  obtain ⟨hvalues, hle, later, laterValues, hsegments, hlater, hroom⟩ :=
    segments_of_go (s.current.span.start + 1) hr hgo
      (fun raw bad isLast hl => h.fits.templateSize_le hl) (Nat.le_refl _) (by simp)
  cases hsegments
  cases hlater
  exact h.spans rfl rfl hle hvalues
    (fun _ => Node.noneSpans_of_segments hroom hvalues (Nat.lt_add_one _)) ⟨hopen, hroom⟩

@[grind →] theorem Takes.eq_of_checkFlags {flags : List Char} {span : Span} {a : Unit}
    (h : Takes text c s (checkFlags flags span) a t) : t = s := by
  simp [checkFlags] at h
  obtain ⟨-, h⟩ := h
  split at h <;> simp at h
  exact h.2

theorem lays_regexLiteral : Lays text regexLiteral := by
  intro c s n t h
  have hp := h
  simp [regexLiteral] at hp
  obtain ⟨u, hu, hp⟩ := hp
  obtain ⟨-, hstart, hplace⟩ := hu.of_rescan
  split at hp
  next flags hl =>
    simp at hp
    obtain ⟨v, hv, hw, -, rfl⟩ := hp
    obtain rfl := hw.eq_of_checkFlags
    have hlast := hv.last_eq
    have hlt := hv.fits.start_lt_stop fun cs hcs => by
      rw [hl] at hcs
      exact hcs
    exact h.spans hstart (by rw [hlast]; rfl) (by grind) (by grind) (by grind) trivial
  · simp at hp
  · simp at hp

/-- Items of which the first begins at an offset and none ends behind the last, up to another one.
What they show lies where they do. -/
structure Reaches (text : List Char) (lo hi : Nat) (items : List Node) : Prop where
  start_eq : ∀ first ∈ items.head?, first.span.start = lo
  laidIn : ∀ last ∈ items.getLast?, Node.AllLaidIn text lo last.span.stop items
  kept : ∀ last ∈ items.getLast?, Node.Kept lo last.span.stop items
  stop_le : ∀ last ∈ items.getLast?, last.span.stop ≤ hi

theorem reaches_nil {lo hi : Nat} : Reaches text lo hi [] :=
  ⟨by simp, by simp, by simp, by simp⟩

theorem Reaches.laidIn_hi {lo hi : Nat} {items : List Node} (h : Reaches text lo hi items) :
    Node.AllLaidIn text lo hi items := by
  rcases List.eq_nil_or_concat items with rfl | ⟨front, last, rfl⟩
  · simp
  · exact (h.laidIn last (by simp)).mono (Nat.le_refl _) (h.stop_le last (by simp))

theorem Reaches.kept_hi {lo hi : Nat} {items : List Node} (h : Reaches text lo hi items) :
    Node.Kept lo hi items := by
  rcases List.eq_nil_or_concat items with rfl | ⟨front, last, rfl⟩
  · exact Node.kept_nil
  · exact (h.kept last (by simp)).mono (Nat.le_refl _) (h.stop_le last (by simp))

theorem Reaches.mono {lo hi hi' : Nat} {items : List Node} (h : Reaches text lo hi items)
    (hle : hi ≤ hi') : Reaches text lo hi' items :=
  ⟨h.start_eq, h.laidIn, h.kept, fun last hl => (h.stop_le last hl).trans hle⟩

theorem Reaches.concat {lo hi stop : Nat} {items : List Node} {n : Node}
    (h : Reaches text lo hi items) (hle : hi ≤ n.span.stop) (hstop : n.span.stop ≤ stop)
    (hn : n.LaidIn text lo n.span.stop) (hkept : Node.Kept lo n.span.stop (items ++ [n]))
    (hfirst : items = [] → n.span.start = lo) : Reaches text lo stop (items ++ [n]) := by
  refine ⟨?_, ?_, by simpa using hkept, by simpa using hstop⟩
  · cases items with
    | nil => simpa using hfirst rfl
    | cons first rest => simpa using h.start_eq
  · have := h.laidIn_hi.mono (Nat.le_refl lo) hle
    simp only [List.getLast?_concat, Option.mem_some_iff, forall_eq', Node.allLaidIn_append,
      Node.allLaidIn_cons, Node.allLaidIn_nil, and_true]
    exact ⟨this, hn⟩

/-- The items together are laid out where they reach. -/
theorem Reaches.sequence {lo hi : Nat} {first : Node} {rest : List Node}
    (h : Reaches text lo hi (first :: rest)) :
    Node.Within text lo hi (.other
      ⟨first.span.start, ((first :: rest).getLastD first).span.stop⟩ .sequence (first :: rest)) := by
  rcases hlast : (first :: rest).getLast? with - | last
  · simp at hlast
  · have hall := h.laidIn last hlast
    have hstop := h.stop_le last hlast
    have hstart := h.start_eq first (by simp)
    have hfirst := (hall first List.mem_cons_self).laid.here.span_in
    have hend := (hall last (List.mem_of_getLast? hlast)).laid.here.span_in
    have hle := (hall first List.mem_cons_self).bounds
    rw [List.getLastD_eq_getLast?, hlast, Option.getD_some]
    have hspans : Node.Spans text lo last.span.stop
        (.other ⟨first.span.start, last.span.stop⟩ .sequence (first :: rest)) :=
      .plain hstart rfl ⟨hstart ▸ hfirst.start_isBoundary, hend.stop_isBoundary,
        hle.1.trans (hle.2.1.trans hle.2.2)⟩ hall
        (h.kept last hlast) rfl trivial
    exact hspans.within.mono (Nat.le_refl _) hstop

/-- An arrow behind items that are its parameters too shows no more than they do and its body. -/
theorem kept_lateArrow {lo mid hi : Nat} {items params : List Node} {span : Span} {body : Node}
    (hitems : Node.Kept lo mid items) (hparams : Node.Fewer params items)
    (hbody : Node.Kept mid hi [body]) (hlo : lo ≤ mid) (hhi : mid ≤ hi) :
    Node.Kept lo hi (items ++ [.arrow span params body]) := by
  have hall := (hitems.of_fewer ((Node.Fewer.refl items).both hparams)).append hbody hlo hhi
  refine hall.of_fewer ?_
  rw [List.append_assoc]
  exact (Node.Fewer.refl items).append (Node.fewer_node rfl (fun _ => rfl) (.refl _))

theorem reaches_withLateArrow {start lo : Nat} {items ns : List Node} (hr : RulesLay text rule)
    (h : Takes text c s (withLateArrow rule start items) ns t)
    (hstart : isBoundary start text = true) (hlo : lo ≤ start) (hle : start ≤ s.last.stop)
    (hitems : Reaches text lo s.last.stop items) : Reaches text lo t.last.stop ns := by
  have hlater (hne : items ≠ []) (h : Takes text c s (do
      let params ← toParameters none items
      return items ++ [← arrowRest rule start false params]) ns t) :
      Reaches text lo t.last.stop ns := by
    simp at h
    obtain ⟨params, u, hu, arrow, ha, -, rfl⟩ := h
    have hparams := takes_toParameters hu
    obtain ⟨body, rfl, hbody⟩ := takes_arrowRest hr ha
    have hlaid : (Node.arrow ⟨start, t.last.stop⟩ params body).Everywhere (Node.Laid text) :=
      Node.laid_arrow ⟨hstart, ha.fits_after.last_isBoundary, by grind⟩
        (hparams.laidIn hitems.laidIn_hi) hbody.laid
    have hstops : s.last.stop ≤ t.last.stop := by grind
    refine hitems.concat hstops (Nat.le_refl _) ⟨hlo, Nat.le_refl _, hlaid⟩ ?_
      (fun hnil => absurd hnil hne)
    exact kept_lateArrow hitems.kept_hi hparams.fewer
      (hbody.kept.mono (by grind) (Nat.le_refl _)) (hlo.trans hle) hstops
  unfold withLateArrow at h
  split at h
  · exact hlater (by simp) h
  · exact hlater (by simp) h
  · simp at h
    obtain ⟨-, rfl, rfl⟩ := h
    exact hitems

theorem exists_of_withLateArrow {start : Nat} {items ns : List Node}
    (h : Takes text c s (withLateArrow rule start items) ns t) : ∃ later, ns = items ++ later := by
  unfold withLateArrow at h
  split at h
  · simp at h
    obtain ⟨params, u, -, arrow, -, -, rfl⟩ := h
    exact ⟨_, rfl⟩
  · simp at h
    obtain ⟨params, u, -, arrow, -, -, rfl⟩ := h
    exact ⟨_, rfl⟩
  · simp at h
    obtain ⟨-, rfl, -⟩ := h
    exact ⟨[], by simp⟩

theorem ne_nil_of_nextItem {items ns : List Node} (h : Takes text c s (nextItem rule items) ns t) :
    ns ≠ [] := by
  simp [nextItem] at h
  obtain ⟨e, u, -, ⟨-, v, -, h⟩ | ⟨-, -, rfl, -⟩⟩ := h
  · obtain ⟨later, rfl⟩ := exists_of_withLateArrow h
    simp
  · simp

theorem reaches_nextItem {lo : Nat} {items ns : List Node} (hr : RulesLay text rule)
    (h : Takes text c s (nextItem rule items) ns t) (hlo : lo ≤ s.current.span.start)
    (hfirst : items = [] → lo = s.current.span.start)
    (hitems : Reaches text lo s.last.stop items) : Reaches text lo t.last.stop ns := by
  have hstart := h.fits.start_isBoundary
  simp [nextItem] at h
  obtain ⟨e, u, hu, h⟩ := h
  have he := lays_maybeSpread hr hu
  have hnext : Reaches text lo u.last.stop (items ++ [e]) := by
    have hwithin := he.within.mono hlo (Nat.le_refl _)
    have hle := hu.le
    rw [← he.stop_eq] at hwithin
    refine hitems.concat ?_ (Nat.le_of_eq he.stop_eq) hwithin.toLaidIn ?_
      (fun hnil => by rw [he.start_eq, hfirst hnil])
    · rw [he.stop_eq]
      exact hle.2.2.1
    · rw [he.stop_eq]
      exact (hitems.kept_hi.mono (Nat.le_refl _) hle.1).append he.kept hlo he.le
  rcases h with ⟨-, v, hv, h⟩ | ⟨-, -, rfl, rfl⟩
  · exact reaches_withLateArrow hr h hstart hlo (by grind) (hnext.mono (by grind))
  · exact hnext

theorem reaches_parenItems_go {fuel lo : Nat} {items : List Node} {comma : Option Span}
    {found : List Node × Option Span} (hr : RulesLay text rule)
    (h : Takes text c s (parenItems.go rule fuel items comma) found t)
    (hlo : lo ≤ s.current.span.start) (hfirst : items = [] → lo = s.current.span.start)
    (hitems : Reaches text lo s.last.stop items) : Reaches text lo t.last.stop found.1 := by
  induction fuel generalizing items comma s with
  | zero =>
    simp [parenItems.go] at h
    grind
  | succ fuel ih =>
    simp [parenItems.go] at h
    rcases h with ⟨-, -, rfl, rfl⟩ | ⟨-, ns, u, hu, h⟩
    · simpa using hitems
    · have hns := reaches_nextItem hr hu hlo hfirst hitems
      have hne : ns ≠ [] := ne_nil_of_nextItem hu
      rcases h with ⟨-, h⟩ | ⟨-, v, ⟨-, hv⟩, h⟩
      · exact ih h (by grind) (fun hnil => absurd hnil hne) hns
      · exact ih h (by grind) (fun hnil => absurd hnil hne) (hns.mono (by grind))

/-- The items between parentheses begin behind the opening one. -/
theorem reaches_parenItems {found : List Node × Option Span} (hr : RulesLay text rule)
    (h : Takes text c s (parenItems rule) found t) :
    s.current.span.start ≤ t.last.stop ∧
      ∃ lo, s.current.span.start ≤ lo ∧ Reaches text lo t.last.stop found.1 := by
  simp [parenItems] at h
  obtain ⟨u, ⟨-, hu⟩, items, comma, v, hv, ⟨-, hend⟩, -, rfl⟩ := h
  have hitems := reaches_parenItems_go hr hv (Nat.le_refl _) (fun _ => rfl) reaches_nil
  exact ⟨by grind, _, by grind, hitems.mono (by grind)⟩

theorem eq_of_checkArrowEnd {arrow n : Node} (h : Takes text c s (checkArrowEnd rule arrow) n t) :
    n = arrow ∧ t = s := by
  unfold checkArrowEnd at h
  split at h
  · simp at h
    exact h.2.2
  · simp at h
    exact h.2

section parens

variable {start : Nat} {items : List Node} {n : Node}

theorem spans_parenArrow {canBeArrow isAsync : Bool} {comma : Option Span} (hr : RulesLay text rule)
    (h : Takes text c s (parenArrow rule start canBeArrow isAsync items comma) n t)
    (hstart : isBoundary start text = true) (hle : start ≤ s.last.stop)
    (hitems : Node.AllLaidIn text start s.last.stop items)
    (hkept : Node.Kept start s.last.stop items) : n.Spans text start t.last.stop := by
  simp [parenArrow] at h
  obtain ⟨-, -, u, hu, params, v, hv, arrow, w, hw, h⟩ := h
  obtain ⟨rfl, rfl⟩ := eq_of_checkArrowEnd h
  have hparams := takes_toParameters hv
  have hstops : s.last.stop ≤ v.last.stop := by grind
  exact spans_arrowRest hr hw hstart (hle.trans hstops)
    (hparams.laidIn (hitems.mono (Nat.le_refl _) hstops))
    ((hkept.of_fewer hparams.fewer).mono (Nat.le_refl _) hstops)

theorem spans_parenGroup {lo : Nat} (h : Takes text c s (parenGroup start items) n t)
    (hstart : isBoundary start text = true) (hlo : start ≤ lo) (hle : start ≤ s.last.stop)
    (hitems : Reaches text lo s.last.stop items) : n.Spans text start t.last.stop := by
  have hp := h
  simp [parenGroup] at hp
  obtain ⟨u, hu, hp⟩ := hp
  split at hp
  · simp at hp
  · simp at hp
    obtain ⟨-, rfl, rfl⟩ := hp
    have hstops := h.le.2.2.1
    exact .plain rfl rfl ⟨hstart, h.fits_after.last_isBoundary, hle.trans hstops⟩
      (hitems.laidIn_hi.mono hlo hstops) (hitems.kept_hi.mono hlo hstops) rfl trivial
  · simp at hp
    obtain ⟨-, rfl, rfl⟩ := hp
    have hinner := hitems.sequence
    rw [List.getLastD_eq_getLast?] at hinner
    exact h.spans_from hstart rfl rfl (by grind) (by grind) nofun trivial

theorem spans_parenOrArrow {canBeArrow : Bool} {async : Option Span} (hr : RulesLay text rule)
    (h : Takes text c s (parenOrArrow rule canBeArrow async) n t)
    (hstart : isBoundary start text = true)
    (hasync : ∀ span ∈ async, Node.Spans text start s.last.stop (.name span "async"))
    (hnone : async = none → start = s.current.span.start) : n.Spans text start t.last.stop := by
  have hp := h
  simp [parenOrArrow] at hp
  obtain ⟨items, comma, u, hu, hp⟩ := hp
  obtain ⟨hle, lo, hlo, hitems⟩ := reaches_parenItems hr hu
  have hplace : (async.getD s.current.span).start = start ∧ start ≤ s.current.span.start := by
    cases async with
    | none => exact ⟨(hnone rfl).symm, Nat.le_of_eq (hnone rfl)⟩
    | some span =>
      have hname := hasync span rfl
      exact ⟨hname.start_eq, by grind⟩
  rw [hplace.1] at hp
  have hlo' := hplace.2.trans hlo
  rcases hp with ⟨-, hp⟩ | ⟨-, v, hv, hp⟩
  · exact spans_parenArrow hr hp hstart (by grind) (hitems.laidIn_hi.mono hlo' (Nat.le_refl _))
      (hitems.kept_hi.mono hlo' (Nat.le_refl _))
  · cases async with
    | none => exact spans_parenGroup hp hstart (by grind) (by grind) (hitems.mono (by grind))
    | some span =>
      have hname := hasync span rfl
      simp at hp
      obtain ⟨-, rfl, rfl⟩ := hp
      have hstops := hv.le.2.2.1
      have hlast := hu.le
      refine .plain rfl rfl ⟨hstart, h.fits_after.last_isBoundary, by grind⟩ ?_ ?_ rfl trivial
      · simpa [Node.children] using ⟨hname.within.toLaidIn.mono (Nat.le_refl _) (by grind),
          hitems.laidIn_hi.mono hlo' hstops⟩
      · exact hname.kept.append (hitems.kept_hi.mono (by grind) hstops) hname.le (by grind)

theorem spans_bareArrow {isAsync : Bool} {param : Node} (hr : RulesLay text rule)
    (h : Takes text c s (bareArrow rule start isAsync param) n t)
    (hstart : isBoundary start text = true) (hle : start ≤ s.last.stop)
    (hparam : param.Within text start s.last.stop) : n.Spans text start t.last.stop := by
  simp [bareArrow] at h
  exact spans_arrowRest hr h.2 hstart hle (by simpa using hparam.toLaidIn) hparam.kept_between

theorem spans_asyncArrow {m : Node} (hr : RulesLay text rule)
    (h : Takes text c s (asyncArrow rule start m) n t) (hm : m.Spans text start s.last.stop) :
    n.Spans text start t.last.stop := by
  simp [asyncArrow] at h
  rcases h with ⟨-, -, -, rfl, rfl⟩ | ⟨-, param, u, hu, v, ⟨-, hv⟩, h⟩
  · exact hm
  · have hparam := lays_boundName false hu
    exact spans_bareArrow hr h hm.start_isBoundary (by grind) (by grind)

theorem lays_nameOrArrow (hr : RulesLay text rule) (canBeArrow : Bool) :
    Lays text (nameOrArrow rule canBeArrow) := by
  intro c s n t h
  have hstart := h.fits.start_isBoundary
  simp [nameOrArrow] at h
  obtain ⟨m, u, hu, h⟩ := h
  have hm := lays_reference hu
  have hrest (h : ((canBeArrow = true ∧ u.current.afterNewline = false) ∧
        u.current.lexeme = .punctuator "=>") ∧ (∃ v, Takes text c u advance () v ∧
          Takes text c v (bareArrow rule s.current.span.start false m) n t) ∨
      (canBeArrow = true → u.current.afterNewline = false → ¬u.current.lexeme = .punctuator "=>") ∧
        (Progress.Fits text u ∧ u.Clean) ∧ n = m ∧ t = u) :
      n.Spans text s.current.span.start t.last.stop := by
    rcases h with ⟨-, v, hv, h⟩ | ⟨-, -, rfl, rfl⟩
    · exact spans_bareArrow hr h hstart (by grind) (by grind)
    · exact hm
  rcases h with ⟨-, h⟩ | ⟨-, ⟨-, h⟩ | ⟨-, h⟩⟩
  · exact hrest h
  · exact spans_asyncArrow hr h hm
  · exact hrest h

end parens

@[grind →] theorem Takes.same_of_markStrict {start : Nat} {a : Unit}
    (h : Takes text c s (markStrict start) a t) : t.current = s.current ∧ t.last = s.last := by
  have hrun := h.run
  cases hrun
  exact ⟨rfl, rfl⟩

/-- A literal that can be mutated must not be empty. -/
theorem spans_takeLiteral {value : Literal} {n : Node} (h : Takes text c s (takeLiteral value) n t)
    (hw : (value != .null && value != .number) = true →
      ∀ cs, s.current.lexeme.Written cs → cs ≠ []) :
    n.Spans text s.current.span.start t.last.stop := by
  have hp := h
  have hlt (hmut : (value != .null && value != .number) = true) :=
    h.fits.start_lt_stop (hw hmut)
  have hshape : (Node.literal s.current.span value).Shaped text := by
    cases value with
    | string => exact hlt rfl
    | _ => trivial
  simp [takeLiteral] at hp
  rcases hp with ⟨-, u, hu, hv, -, rfl⟩ | ⟨-, hv, -, rfl⟩
  · have hlast := hv.last_eq
    have hsame := hu.same_of_markStrict
    exact h.spans rfl (by rw [hlast, hsame.1]; rfl) (by grind) (by grind) (by grind)
      (hsame.1 ▸ hshape)
  · have hlast := hv.last_eq
    exact h.spans rfl (by rw [hlast]; rfl) (by grind) (by grind) (by grind) hshape

theorem lays_takeOther (form : Form) : Lays text (takeOther form) := by
  intro c s n t h
  have hp := h
  simp [takeOther] at hp
  obtain ⟨hu, -, rfl⟩ := hp
  have hlast := hu.last_eq
  exact h.spans rfl (by rw [hlast]; rfl) (by grind) (by grind) nofun trivial

theorem lays_privateReference : Lays text privateReference := by
  intro c s n t h
  have hp := h
  simp [privateReference] at hp
  obtain ⟨u, hu, ⟨w, place, hw⟩, -, rfl⟩ := hp
  exact h.spans rfl rfl (by grind) (by grind) nofun trivial

theorem looks_atAsyncFunction : Looks atAsyncFunction := by
  intro c s
  change ∃ a, (if s.current.lexeme == .word "async" then do
      let next ← ahead
      return next.lexeme == .word "function" && !next.afterNewline
    else pure false : Parser Bool).run c s = (.ok a, s)
  split <;> exact ⟨_, rfl⟩

theorem lays_asyncPrimary (hr : RulesLay text rule) (canBeArrow : Bool) :
    Lays text (asyncPrimary rule canBeArrow) := by
  intro c s n t h
  have hstart := h.fits.start_isBoundary
  simp [asyncPrimary, takes_bind_of_looks looks_atAsyncFunction] at h
  rcases h with ⟨-, ⟨-, u, hu, h⟩ | ⟨-, h⟩⟩ | ⟨-, h⟩
  · refine spans_parenOrArrow hr h hstart (fun span hspan => ?_) nofun
    cases hspan
    exact hu.spans_name hu.last_eq
  · exact lays_nameOrArrow hr canBeArrow h
  · exact lays_function hr false false h

theorem lays_primary (hr : RulesLay text rule) : Lays text (primary rule) := by
  intro c s n t h
  have hstart := h.fits.start_isBoundary
  simp [primary] at h
  have hword {w : String} (hw : s.current.lexeme = .word w) (hk : w ∈ Scan.keywords) :
      ∀ cs, s.current.lexeme.Written cs → cs = w.toList := fun cs hcs => by
    rw [hw] at hcs
    exact hcs hk
  split at h
  · simp at h
  · exact spans_takeLiteral h nofun
  next hl => exact spans_takeLiteral h fun _ cs hcs => by rw [hl] at hcs; exact hcs
  next hl => exact spans_takeLiteral h fun _ cs hcs => by rw [hl] at hcs; exact hcs
  · exact lays_templateLiteral hr false h
  · exact lays_regexLiteral h
  · exact lays_regexLiteral h
  · exact lays_arrayLiteral hr h
  · exact lays_objectLiteral hr h
  · exact spans_parenOrArrow hr h hstart nofun fun _ => rfl
  · exact lays_privateReference h
  · exact lays_takeOther _ h
  · exact spans_takeLiteral h nofun
  next hl =>
    exact spans_takeLiteral h fun _ cs hcs => by rw [hword hl (by decide) cs hcs]; decide
  next hl =>
    exact spans_takeLiteral h fun _ cs hcs => by rw [hword hl (by decide) cs hcs]; decide
  · exact lays_function hr false false h
  · exact lays_classFrom hr false false h
  · exact lays_nameOrArrow hr _ h
  · exact lays_asyncPrimary hr _ h
  · simp at h
    exact lays_nameOrArrow hr _ h.2

end Parser

end Adequacy
