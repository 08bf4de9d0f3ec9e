import Adequacy.Proofs.Progression
import Adequacy.Proofs.SparedCalls
import Mathlib.Data.List.Pairwise

namespace Adequacy

/-- The span lies in the text and splits no character. -/
structure Span.In (text : List Char) (s : Span) : Prop where
  start_isBoundary : isBoundary s.start text = true
  stop_isBoundary : isBoundary s.stop text = true
  start_le_stop : s.start ≤ s.stop

/-- The next lexeme behind an offset is written like this, and ends at `stop`. -/
def Behind (text : List Char) (offset : Nat) (lexeme : String) (stop : Nat) : Prop :=
  ∃ front gap rest, text = front ++ (gap ++ (lexeme.toList ++ rest)) ∧ byteSize front = offset ∧
    Gap gap (lexeme.toList ++ rest) ∧ offset + byteSize gap + byteSize lexeme.toList = stop

theorem Behind.start_isBoundary {text : List Char} {offset stop : Nat} {lexeme : String}
    (h : Behind text offset lexeme stop) :
    isBoundary (stop - lexeme.utf8ByteSize) text = true := by
  obtain ⟨front, gap, rest, htext, hf, -, hs⟩ := h
  refine isBoundary_iff.mpr ⟨front ++ gap, lexeme.toList ++ rest, by rw [htext]; simp, ?_⟩
  rw [byteSize_append, utf8ByteSize_eq_byteSize]
  omega

theorem Behind.le {text : List Char} {offset stop : Nat} {lexeme : String}
    (h : Behind text offset lexeme stop) : offset + byteSize lexeme.toList ≤ stop := by
  obtain ⟨front, gap, rest, -, -, -, hs⟩ := h
  omega

theorem Behind.lt {text : List Char} {offset stop : Nat} {lexeme : String}
    (h : Behind text offset lexeme stop) (hne : lexeme ≠ "") : offset < stop := by
  have hle := h.le
  rcases hl : lexeme.toList with - | ⟨c, cs⟩
  · exact absurd (String.toList_eq_nil_iff.mp hl) hne
  · rw [hl, byteSize_cons] at hle
    have := c.utf8Size_pos
    omega

/-- Whether the text goes on like this from an offset on. -/
def ReadsAt (text : List Char) (offset : Nat) (cs : List Char) : Prop :=
  ∃ front rest, text = front ++ (cs ++ rest) ∧ byteSize front = offset

/-- Where a comment of the old form begins nothing else is read. -/
theorem ReadsAt.not_oldStart {text front gap rest cs : List Char} {c : Char} {start : Nat}
    (h : ReadsAt text start (c :: cs)) (htext : text = front ++ (gap ++ rest))
    (hless : c ≠ '<') (hminus : c ≠ '-') : ¬ Scan.OldStart (byteSize front) gap start := by
  rintro ⟨as, mark, bs, rfl, rfl, hmark⟩
  obtain ⟨front', rest', htext', hfront⟩ := h
  have heq : (front ++ as) ++ (mark ++ (bs ++ rest)) = front' ++ (c :: (cs ++ rest')) := by
    rw [← List.cons_append, ← htext', htext]
    simp
  obtain ⟨-, hrest⟩ := append_inj_of_byteSize_eq heq (by rw [byteSize_append, hfront])
  rcases hmark with rfl | rfl
  · exact hless (List.cons.inj hrest).1.symm
  · exact hminus (List.cons.inj hrest).1.symm

/-- Something begins with the next lexeme behind an offset, or with a comment of the old form in
front of that. -/
def NextAt (text : List Char) (offset start : Nat) : Prop :=
  ∃ front gap rest, text = front ++ (gap ++ rest) ∧ byteSize front = offset ∧ Gap gap rest ∧
    (start = offset + byteSize gap ∨ Scan.OldStart offset gap start)

theorem NextAt.le {text : List Char} {offset start : Nat} (h : NextAt text offset start) :
    offset ≤ start := by
  obtain ⟨-, gap, -, -, -, -, rfl | ⟨as, -, -, -, rfl, -⟩⟩ := h
  · exact Nat.le_add_right _ _
  · exact Nat.le_add_right _ _

/-- The segments of a template from an offset on, parted by interpolations, have room up to its
end, and none of them ends the template or begins an interpolation. -/
inductive Segments (text : List Char) : Nat → List String → List Node → Nat → Prop where
  | last {start stop : Nat} {raw : String} (ht : isTemplateText raw.toList = true)
      (h : start + raw.utf8ByteSize + 1 ≤ stop) : Segments text start [raw] [] stop
  | more {start stop brace : Nat} {raw : String} {later : List String} {value : Node}
      {values : List Node} (ht : isTemplateText raw.toList = true)
      (h : start + raw.utf8ByteSize + 2 ≤ value.span.start)
      (hb : Behind text value.span.stop "\x7d" brace) (hl : Segments text brace later values stop) :
      Segments text start (raw :: later) (value :: values) stop

theorem Segments.isTemplateText {text : List Char} {start stop : Nat} {texts : List String}
    {values : List Node} (h : Segments text start texts values stop) :
    ∀ t ∈ texts, isTemplateText t.toList = true := by
  induction h with
  | last ht => exact List.forall_mem_singleton.mpr ht
  | more ht _ _ _ ih => exact List.forall_mem_cons.mpr ⟨ht, ih⟩

namespace Node

/-- Each node begins where it may behind the end of the one before it, and the first one behind an
offset. -/
def InRow (begins : Nat → Nat → Prop) : Nat → List Node → Prop
  | _, [] => True
  | offset, n :: ns => begins offset n.span.start ∧ InRow begins n.span.stop ns

section rows

variable {text : List Char} {offset : Nat} {begins begins' : Nat → Nat → Prop} {ns : List Node}

theorem InRow.imp (h : InRow begins offset ns) (himp : ∀ a b, begins a b → begins' a b) :
    InRow begins' offset ns := by
  induction ns generalizing offset with
  | nil => trivial
  | cons n ns ih => exact ⟨himp _ _ h.1, ih h.2⟩

theorem InRow.le_start (h : InRow (· ≤ ·) offset ns) (hin : ∀ n ∈ ns, n.span.In text) :
    ∀ n ∈ ns, offset ≤ n.span.start := by
  induction ns generalizing offset with
  | nil => simp
  | cons n ns ih =>
    obtain ⟨hn, hin⟩ := List.forall_mem_cons.mp hin
    exact List.forall_mem_cons.mpr ⟨h.1, fun m hm =>
      (h.1.trans hn.start_le_stop).trans (ih h.2 hin m hm)⟩

/-- Nodes in a row are in order. -/
theorem InRow.pairwise (h : InRow (· ≤ ·) offset ns) (hin : ∀ n ∈ ns, n.span.In text) :
    ns.Pairwise (·.span.stop ≤ ·.span.start) := by
  induction ns generalizing offset with
  | nil => exact .nil
  | cons n ns ih =>
    obtain ⟨-, hin⟩ := List.forall_mem_cons.mp hin
    exact List.pairwise_cons.mpr ⟨h.2.le_start hin, ih h.2 hin⟩

end rows

/-- What the text of a node tells of the marks that its own mutations look for. -/
def Shaped (text : List Char) : Node → Prop
  | literal span .string => span.start < span.stop
  | assign span op target _ => ∃ stop, Behind text target.span.stop op stop ∧ stop ≤ span.stop
  | binary _ op left right =>
    ∃ stop, Behind text left.span.stop op stop ∧ stop ≤ right.span.start
  | logical _ op left right =>
    ∃ stop, Behind text left.span.stop op.text stop ∧ stop ≤ right.span.start
  | chainMember span true base _ | chainCall span true base _ =>
    ∃ stop, Behind text base.span.stop "?" stop ∧ stop + 1 ≤ span.stop
  | template span segments values =>
    isBoundary (span.start + 1) text = true ∧
      Segments text (span.start + 1) segments values span.stop
  | unary span op _ =>
    op.utf8ByteSize ≤ 2 → isBoundary (span.start + op.utf8ByteSize) text = true ∧
      span.start + op.utf8ByteSize ≤ span.stop
  | update span op true _ =>
    op.utf8ByteSize ≤ 2 → isBoundary (span.start + op.utf8ByteSize) text = true ∧
      span.start + op.utf8ByteSize ≤ span.stop
  | update span op false _ =>
    isBoundary (span.stop - op.utf8ByteSize) text = true ∧
      span.start + op.utf8ByteSize ≤ span.stop
  | forLoop span init none _ _ =>
    ∃ paren semi, (ReadsAt text span.start "for".toList → Behind text (span.start + 3) "(" paren) ∧
      Behind text (init.elim paren (·.span.stop)) ";" semi ∧ semi ≤ span.stop
  | block span body =>
    ∃ brace, (ReadsAt text span.start "\x7b".toList → brace = span.start + 1) ∧
      InRow (NextAt text) brace body
  | switchCase span test body =>
    ∃ head colon, (∀ e ∈ test, head = e.span.stop) ∧
      (test = none → ReadsAt text span.start "default".toList →
        head = span.start + "default".utf8ByteSize) ∧
      Behind text head ":" colon ∧ colon ≤ span.stop ∧ ∀ s ∈ body, colon ≤ s.span.start
  | _ => True

/-- A node lies in the text, its children lie in it, and its own marks are where they should be. The
parameters of an arrow function may stand in front of it, as the first two do in `(a, b, c` when a
line ends there and an arrow follows. -/
structure Laid (text : List Char) (n : Node) : Prop where
  span_in : n.span.In text
  children (ha : n.isArrow = false) :
    ∀ c ∈ n.children, n.span.start ≤ c.span.start ∧ c.span.stop ≤ n.span.stop
  shaped : n.Shaped text

/-- All nodes from a node down have a property. -/
inductive Everywhere (P : Node → Prop) : Node → Prop where
  | intro {n : Node} (h : P n) (hc : ∀ c ∈ n.children, Everywhere P c) : Everywhere P n

namespace Everywhere

variable {P : Node → Prop} {n c : Node}

theorem here (h : Everywhere P n) : P n := by
  cases h with
  | intro h _ => exact h

theorem child (h : Everywhere P n) (hc : c ∈ n.children) : Everywhere P c := by
  cases h with
  | intro _ h => exact h c hc

end Everywhere

/-- Whether a test passes on all nodes from a node down. -/
def passes (test : Node → Bool) (n : Node) : Bool :=
  test n && n.children.attach.all fun ⟨c, _⟩ => c.passes test
termination_by sizeOf n
decreasing_by exact sizeOf_lt_of_mem_children (by assumption)

theorem everywhere_of_passes {P : Node → Prop} [DecidablePred P] {n : Node}
    (h : n.passes (fun m => decide (P m)) = true) : n.Everywhere P := by
  induction n using induct with
  | step n ih =>
    rw [passes, Bool.and_eq_true, decide_eq_true_eq, List.all_eq_true] at h
    exact .intro h.1 fun c hc => ih c hc (h.2 ⟨c, hc⟩ (List.mem_attach _ _))

/-- A node that is laid out between two offsets. -/
structure LaidIn (text : List Char) (lo hi : Nat) (n : Node) : Prop where
  start_le : lo ≤ n.span.start
  le_stop : n.span.stop ≤ hi
  laid : n.Everywhere (Laid text)

/-- A node that is laid out between two offsets and shows nothing outside its own span. -/
structure Within (text : List Char) (lo hi : Nat) (n : Node) : Prop extends LaidIn text lo hi n where
  kept : Kept n.span.start n.span.stop [n]

/-- A node that is laid out and takes all of the text between two offsets. -/
structure Spans (text : List Char) (lo hi : Nat) (n : Node) : Prop where
  start_eq : n.span.start = lo
  stop_eq : n.span.stop = hi
  laid : n.Everywhere (Laid text)
  kept : Kept lo hi [n]

variable {text : List Char} {lo hi lo' hi' : Nat} {n : Node} {ns ms : List Node}

theorem LaidIn.mono (h : n.LaidIn text lo hi) (hlo : lo' ≤ lo) (hhi : hi ≤ hi') :
    n.LaidIn text lo' hi' :=
  ⟨hlo.trans h.start_le, h.le_stop.trans hhi, h.laid⟩

theorem LaidIn.bounds (h : n.LaidIn text lo hi) :
    lo ≤ n.span.start ∧ n.span.start ≤ n.span.stop ∧ n.span.stop ≤ hi :=
  ⟨h.start_le, h.laid.here.span_in.start_le_stop, h.le_stop⟩

theorem Within.mono (h : n.Within text lo hi) (hlo : lo' ≤ lo) (hhi : hi ≤ hi') :
    n.Within text lo' hi' :=
  ⟨h.toLaidIn.mono hlo hhi, h.kept⟩

theorem Within.bounds (h : n.Within text lo hi) :
    lo ≤ n.span.start ∧ n.span.start ≤ n.span.stop ∧ n.span.stop ≤ hi := h.toLaidIn.bounds

theorem Within.kept_between (h : n.Within text lo hi) : Kept lo hi [n] :=
  h.kept.mono h.start_le h.le_stop

theorem Spans.within (h : n.Spans text lo hi) : n.Within text lo hi := by
  refine ⟨⟨Nat.le_of_eq h.start_eq.symm, Nat.le_of_eq h.stop_eq, h.laid⟩, ?_⟩
  rw [h.start_eq, h.stop_eq]
  exact h.kept

theorem Spans.start_isBoundary (h : n.Spans text lo hi) : isBoundary lo text = true := by
  rw [← h.start_eq]
  exact h.laid.here.span_in.start_isBoundary

theorem Spans.le (h : n.Spans text lo hi) : lo ≤ hi := by
  have := h.within.bounds
  omega

/-- Nodes that are laid out between two offsets, wherever they stand to each other. -/
def AllLaidIn (text : List Char) (lo hi : Nat) (ns : List Node) : Prop :=
  ∀ n ∈ ns, n.LaidIn text lo hi

@[simp, grind =] theorem allLaidIn_nil : AllLaidIn text lo hi [] ↔ True := by simp [AllLaidIn]

@[simp, grind =] theorem allLaidIn_cons :
    AllLaidIn text lo hi (n :: ns) ↔ n.LaidIn text lo hi ∧ AllLaidIn text lo hi ns := by
  simp [AllLaidIn]

@[simp, grind =] theorem allLaidIn_append :
    AllLaidIn text lo hi (ns ++ ms) ↔ AllLaidIn text lo hi ns ∧ AllLaidIn text lo hi ms := by
  simp [AllLaidIn, or_imp, forall_and]

theorem AllLaidIn.mono (h : AllLaidIn text lo hi ns) (hlo : lo' ≤ lo) (hhi : hi ≤ hi') :
    AllLaidIn text lo' hi' ns := fun n hn => (h n hn).mono hlo hhi

/-- Two nodes that do not overlap. -/
@[grind] def Apart (n m : Node) : Prop := n.span.stop ≤ m.span.start ∨ m.span.stop ≤ n.span.start

instance : Std.Symm Apart := ⟨fun _ _ => Or.symm⟩

theorem Apart.symm {m : Node} (h : n.Apart m) : m.Apart n := Or.symm h

/-- A node that overlaps with none of some others. -/
def ApartAll (n : Node) (ns : List Node) : Prop := ∀ m ∈ ns, n.Apart m

@[simp, grind =] theorem apartAll_nil : n.ApartAll [] ↔ True := by simp [ApartAll]

@[simp, grind =] theorem apartAll_cons {m : Node} :
    n.ApartAll (m :: ms) ↔ n.Apart m ∧ n.ApartAll ms := by
  simp [ApartAll]

@[simp, grind =] theorem apartAll_append :
    n.ApartAll (ns ++ ms) ↔ n.ApartAll ns ∧ n.ApartAll ms := by
  simp [ApartAll, or_imp, forall_and]

@[simp, grind =] theorem apartAll_reverse : n.ApartAll ns.reverse ↔ n.ApartAll ns := by
  simp [ApartAll]

/-- Nodes that overlap with none of some others. -/
def EachApart (ns ms : List Node) : Prop := ∀ n ∈ ns, n.ApartAll ms

theorem eachApart_comm : EachApart ns ms ↔ EachApart ms ns :=
  ⟨fun h m hm n hn => (h n hn m hm).symm, fun h n hn m hm => (h m hm n hn).symm⟩

@[simp, grind =] theorem eachApart_nil_left : EachApart [] ms ↔ True := by simp [EachApart]

@[simp, grind =] theorem eachApart_cons_left :
    EachApart (n :: ns) ms ↔ n.ApartAll ms ∧ EachApart ns ms := by
  simp [EachApart]

@[simp, grind =] theorem eachApart_append_left {ks : List Node} :
    EachApart (ns ++ ks) ms ↔ EachApart ns ms ∧ EachApart ks ms := by
  simp [EachApart, or_imp, forall_and]

@[simp, grind =] theorem eachApart_nil_right : EachApart ns [] ↔ True := by simp [EachApart]

@[simp, grind =] theorem eachApart_cons_right :
    EachApart ns (n :: ms) ↔ n.ApartAll ns ∧ EachApart ns ms := by
  rw [eachApart_comm, eachApart_cons_left, eachApart_comm]

/-- Nodes that are laid out between two offsets and do not overlap. -/
def AllWithin (text : List Char) (lo hi : Nat) (ns : List Node) : Prop :=
  (∀ n ∈ ns, n.Within text lo hi) ∧ ns.Pairwise Apart

@[simp, grind =] theorem allWithin_nil : AllWithin text lo hi [] ↔ True := by simp [AllWithin]

@[simp, grind =] theorem allWithin_cons :
    AllWithin text lo hi (n :: ns) ↔
      n.Within text lo hi ∧ n.ApartAll ns ∧ AllWithin text lo hi ns := by
  simp only [AllWithin, List.mem_cons, forall_eq_or_imp, List.pairwise_cons, ApartAll]
  tauto

@[simp, grind =] theorem allWithin_append :
    AllWithin text lo hi (ns ++ ms) ↔
      AllWithin text lo hi ns ∧ AllWithin text lo hi ms ∧ EachApart ns ms := by
  simp only [AllWithin, List.mem_append, or_imp, forall_and, List.pairwise_append, EachApart, ApartAll]
  tauto

@[simp, grind =] theorem allWithin_reverse :
    AllWithin text lo hi ns.reverse ↔ AllWithin text lo hi ns := by
  simp only [AllWithin, List.mem_reverse, List.pairwise_reverse]
  exact and_congr_right fun _ => ⟨.imp .symm, .imp .symm⟩

theorem AllWithin.mono (h : AllWithin text lo hi ns) (hlo : lo' ≤ lo) (hhi : hi ≤ hi') :
    AllWithin text lo' hi' ns := ⟨fun n hn => (h.1 n hn).mono hlo hhi, h.2⟩

theorem AllWithin.laidIn (h : AllWithin text lo hi ns) : AllLaidIn text lo hi ns :=
  fun n hn => (h.1 n hn).toLaidIn

/-- What lies beside some nodes overlaps with none of them. -/
theorem AllWithin.apartAll (h : AllWithin text lo hi ns)
    (hn : n.span.stop ≤ lo ∨ hi ≤ n.span.start) : n.ApartAll ns := by
  intro m hm
  have hbounds := (h.1 m hm).bounds
  exact hn.imp (fun hn => by omega) (fun hn => by omega)

theorem AllWithin.eachApart (h : AllWithin text lo hi ns) (h' : AllWithin text lo' hi' ms)
    (hle : hi ≤ lo') : EachApart ns ms :=
  fun n hn => h'.apartAll (.inl ((h.1 n hn).le_stop.trans hle))

/-- Nodes that do not overlap show nothing that stands in each other's way. -/
theorem AllWithin.kept (h : AllWithin text lo hi ns) : Kept lo hi ns where
  bounds _ _ _ n hn hs := (h.1 n hn).kept_between.bounds n (List.mem_singleton_self n) hs
  filled _ _ n hn hs := (h.1 n hn).kept.filled n (List.mem_singleton_self n) hs
  spared assertion s t n hn m hm hs ht := by
    have hself := List.mem_singleton_self n
    by_cases hnm : n = m
    · subst hnm
      exact (h.1 n hn).kept.spared n hself n hself hs ht
    · rintro ⟨hstart, hstop⟩
      have hfilled := (h.1 n hn).kept.filled n hself hs
      have hsn := (h.1 n hn).kept.bounds n hself hs
      have htm := (h.1 m hm).kept.bounds m (List.mem_singleton_self m) ht
      rcases h.2.forall hn hm hnm with hapart | hapart <;> omega

/-- None of the nodes takes all of the text between two offsets. -/
def NoneSpans (lo hi : Nat) (ns : List Node) : Prop :=
  ∀ n ∈ ns, lo < n.span.start ∨ n.span.stop < hi

@[simp, grind =] theorem noneSpans_nil : NoneSpans lo hi [] ↔ True := by simp [NoneSpans]

@[simp, grind =] theorem noneSpans_cons :
    NoneSpans lo hi (n :: ns) ↔ (lo < n.span.start ∨ n.span.stop < hi) ∧ NoneSpans lo hi ns := by
  simp [NoneSpans]

@[simp, grind =] theorem noneSpans_append :
    NoneSpans lo hi (ns ++ ms) ↔ NoneSpans lo hi ns ∧ NoneSpans lo hi ms := by
  simp [NoneSpans, or_imp, forall_and]

@[simp, grind =] theorem noneSpans_reverse :
    NoneSpans lo hi ns.reverse ↔ NoneSpans lo hi ns := by
  simp [NoneSpans]

theorem NoneSpans.mono (h : NoneSpans lo hi ns) (hlo : lo' ≤ lo) (hhi : hi ≤ hi') :
    NoneSpans lo' hi' ns := fun n hn => (h n hn).imp hlo.trans_lt (·.trans_le hhi)

theorem AllWithin.noneSpans (h : AllWithin text lo hi ns) (hlt : lo' < lo ∨ hi < hi') :
    NoneSpans lo' hi' ns := by
  intro n hn
  have hbounds := (h.1 n hn).bounds
  exact hlt.imp (fun hlt => by omega) (fun hlt => by omega)

/-- The interpolations of a template leave its first mark out. -/
theorem noneSpans_of_segments {base stop : Nat} {segments : List String}
    (h : Segments text base segments ns stop) (hn : AllWithin text lo' hi' ns) (hlo : lo < base) :
    lo < stop ∧ NoneSpans lo stop ns := by
  induction h with
  | last _ h => exact ⟨by omega, by simp⟩
  | more _ h hb _ ih =>
    simp only [allWithin_cons, noneSpans_cons] at hn ⊢
    have hbounds := hn.1.bounds
    have hbrace := hb.le
    obtain ⟨hlt, hnone⟩ := ih hn.2.2 (by omega)
    exact ⟨hlt, .inl (by omega), hnone⟩

/-- A node is laid out if its parts are and its own marks are where they should be. -/
theorem Spans.of_laidIn (hstart : n.span.start = lo) (hstop : n.span.stop = hi)
    (hin : Span.In text ⟨lo, hi⟩) (hc : AllLaidIn text lo hi n.children)
    (hkept : Kept lo hi [n]) (hshape : n.Shaped text) : n.Spans text lo hi := by
  have hs : n.span = ⟨lo, hi⟩ := by rw [← hstart, ← hstop]
  refine ⟨hstart, hstop, .intro ⟨by rw [hs]; exact hin, fun _ c h => ?_, hshape⟩
    fun c h => (hc c h).laid, hkept⟩
  rw [hs]
  exact ⟨(hc c h).start_le, (hc c h).le_stop⟩

/-- A node is laid out if its parts are. Where it can be mutated, none of them may take all of its
text. -/
theorem Spans.intro (hstart : n.span.start = lo) (hstop : n.span.stop = hi)
    (hin : Span.In text ⟨lo, hi⟩) (hc : AllWithin text lo hi n.children)
    (hmut : n.isMutable = true → lo < hi ∧ NoneSpans lo hi n.children)
    (hshape : n.Shaped text) : n.Spans text lo hi := by
  refine .of_laidIn hstart hstop hin hc.laidIn ?_ hshape
  refine hc.kept.node (Nat.le_of_eq hstart.symm) (Nat.le_of_eq hstop) fun hm => ?_
  obtain ⟨hlt, hnone⟩ := hmut hm
  refine ⟨by omega, fun assertion c hmem t ht => ?_⟩
  rintro ⟨hleft, hright⟩
  have hbounds := (hc.1 c hmem).kept.bounds c (List.mem_singleton_self c) ht
  have := hnone c hmem
  omega

/-- A node that cannot be mutated is laid out if its parts are and keep to its span. -/
theorem Spans.plain (hstart : n.span.start = lo) (hstop : n.span.stop = hi)
    (hin : Span.In text ⟨lo, hi⟩) (hc : AllLaidIn text lo hi n.children)
    (hkept : Kept lo hi n.children) (hm : n.isMutable = false) (hshape : n.Shaped text) :
    n.Spans text lo hi := by
  refine .of_laidIn hstart hstop hin hc ?_ hshape
  refine hkept.node (Nat.le_of_eq hstart.symm) (Nat.le_of_eq hstop) fun h => ?_
  rw [hm] at h
  cases h

/-- An arrow function is laid out if its parts are, wherever its parameters stand. -/
theorem laid_arrow {params : List Node} {body : Node} (hin : Span.In text ⟨lo, hi⟩)
    (hp : AllLaidIn text lo' hi' params) (hb : body.Everywhere (Laid text)) :
    (arrow ⟨lo, hi⟩ params body).Everywhere (Laid text) := by
  refine .intro ⟨hin, nofun, trivial⟩ fun c hc => ?_
  simp only [children, List.mem_append, List.mem_singleton] at hc
  rcases hc with hc | rfl
  · exact (hp c hc).laid
  · exact hb

/-- The parts of a node that is laid out are so in its span. -/
theorem allLaidIn_children (h : n.Everywhere (Laid text)) (ha : n.isArrow = false) :
    AllLaidIn text n.span.start n.span.stop n.children := fun c hc =>
  ⟨(h.here.children ha c hc).1, (h.here.children ha c hc).2, h.child hc⟩

/-- A node that takes the place of another one, with parts of its own, is laid out. -/
theorem Everywhere.replace {m : Node} (h : n.Everywhere (Laid text)) (hs : m.span = n.span)
    (hc : AllLaidIn text n.span.start n.span.stop m.children) (hshape : m.Shaped text) :
    m.Everywhere (Laid text) := by
  refine .intro ⟨by rw [hs]; exact h.here.span_in, fun _ c hmem => ?_, hshape⟩
    fun c hmem => (hc c hmem).laid
  rw [hs]
  exact ⟨(hc c hmem).start_le, (hc c hmem).le_stop⟩

attribute [grind →] Spans.start_eq Spans.stop_eq Within.bounds
attribute [grind .] AllWithin.apartAll AllWithin.eachApart AllWithin.noneSpans NoneSpans.mono
attribute [grind] isMutable
attribute [grind →] Spans.within Spans.le
attribute [grind .] Within.mono AllWithin.mono
attribute [grind] children

end Node

namespace Progress

variable {text : List Char} {s : Progress}

theorem Fits.start_isBoundary (h : s.Fits text) : isBoundary s.current.span.start text = true := by
  obtain ⟨front, gap, cs, h⟩ := h
  rcases h.start_eq with hs | ⟨as, mark, bs, rfl, hs, -⟩
  · refine isBoundary_iff.mpr ⟨front ++ gap, cs ++ s.scanner.rest, ?_, ?_⟩
    · rw [h.text_eq]
      simp
    · rw [hs, byteSize_append]
  · refine isBoundary_iff.mpr ⟨front ++ as, mark ++ bs ++ (cs ++ s.scanner.rest), ?_, ?_⟩
    · rw [h.text_eq]
      simp
    · rw [← hs, byteSize_append]

/-- Up to two bytes of the lexeme at hand can be parted from it, also where an old comment stands
first. -/
theorem Fits.isBoundary_add (h : s.Fits text) (size : Nat) (hs : size ≤ 2)
    (hw : ∀ cs, s.current.lexeme.Written cs → ∃ as bs, cs = as ++ bs ∧ byteSize as = size) :
    isBoundary (s.current.span.start + size) text = true ∧
      s.current.span.start + size ≤ s.current.span.stop := by
  obtain ⟨front, gap, cs, h⟩ := h
  obtain ⟨as, bs, rfl, rfl⟩ := hw cs h.written
  have hle := h.start_le_stop
  have hstop := h.stop_eq
  rw [byteSize_append] at hstop
  refine ⟨?_, by omega⟩
  rcases h.start_eq with hstart | ⟨old, mark, later, rfl, hstart, hmark⟩
  · refine isBoundary_iff.mpr ⟨front ++ gap ++ as, bs ++ s.scanner.rest, ?_, ?_⟩
    · rw [h.text_eq]
      simp
    · rw [hstart]
      simp [Nat.add_assoc]
  · obtain ⟨ms, ms', hm, hsize⟩ : ∃ ms ms', mark = ms ++ ms' ∧ byteSize ms = byteSize as := by
      have hcases : byteSize as = 0 ∨ byteSize as = 1 ∨ byteSize as = 2 := by omega
      rcases hmark with rfl | rfl <;> rcases hcases with h0 | h1 | h2
      · exact ⟨[], _, rfl, by rw [h0]; rfl⟩
      · exact ⟨['<'], _, rfl, by rw [h1]; decide⟩
      · exact ⟨['<', '!'], _, rfl, by rw [h2]; decide⟩
      · exact ⟨[], _, rfl, by rw [h0]; rfl⟩
      · exact ⟨['-'], _, rfl, by rw [h1]; decide⟩
      · exact ⟨['-', '-'], _, rfl, by rw [h2]; decide⟩
    refine isBoundary_iff.mpr ⟨front ++ old ++ ms, ms' ++ (later ++ (as ++ bs ++ s.scanner.rest)), ?_, ?_⟩
    · rw [h.text_eq, hm]
      simp
    · rw [← hstart, ← hsize]
      simp [Nat.add_assoc]

/-- A lexeme with a text of its own is not empty. -/
theorem Fits.start_lt_stop (h : s.Fits text) (hw : ∀ cs, s.current.lexeme.Written cs → cs ≠ []) :
    s.current.span.start < s.current.span.stop := by
  obtain ⟨front, gap, cs, h⟩ := h
  have hle := h.start_le_stop
  have hstop := h.stop_eq
  cases cs with
  | nil => exact absurd rfl (hw [] h.written)
  | cons c cs =>
    rw [byteSize_cons] at hstop
    have := c.utf8Size_pos
    omega

theorem Fits.last_isBoundary (h : s.Fits text) : isBoundary s.last.stop text = true := by
  obtain ⟨front, gap, cs, h⟩ := h
  exact isBoundary_iff.mpr ⟨front, _, h.text_eq, h.last_stop.symm⟩

/-- The lexeme at hand is the next one behind the last one that was taken. -/
theorem Fits.nextAt (h : s.Fits text) : NextAt text s.last.stop s.current.span.start := by
  obtain ⟨front, gap, cs, h⟩ := h
  rw [h.last_stop]
  exact ⟨front, gap, _, h.text_eq, rfl, h.isGap, h.start_eq⟩

/-- A fixed spelling ends where it is written to, unless an old comment comes first. -/
theorem Fits.stop_of_readsAt (h : s.Fits text) {spelling : String} {c : Char} {later : List Char}
    (hs : s.current.lexeme = .punctuator spelling ∨
      s.current.lexeme = .word spelling ∧ spelling ∈ Scan.keywords)
    (hr : ReadsAt text s.current.span.start spelling.toList) (hc : spelling.toList = c :: later)
    (hless : c ≠ '<') (hminus : c ≠ '-') :
    s.current.span.stop = s.current.span.start + spelling.utf8ByteSize := by
  obtain ⟨front, gap, cs, h⟩ := h
  have hcs := h.written.eq_toList hs
  rw [hc] at hr
  have hstart := h.start_eq.resolve_right (hr.not_oldStart h.text_eq hless hminus)
  rw [h.stop_eq, hstart, hcs, utf8ByteSize_eq_byteSize]

/-- A fixed spelling is the next lexeme behind the last one that was taken. -/
theorem Fits.behind (h : s.Fits text) {spelling : String}
    (hs : s.current.lexeme = .punctuator spelling ∨
      s.current.lexeme = .word spelling ∧ spelling ∈ Scan.keywords) :
    Behind text s.last.stop spelling s.current.span.stop := by
  obtain ⟨front, gap, cs, h⟩ := h
  have hcs := h.written.eq_toList hs
  subst hcs
  refine ⟨front, gap, s.scanner.rest, h.text_eq, h.last_stop.symm, h.isGap, ?_⟩
  rw [h.last_stop, h.stop_eq]

end Progress

end Adequacy
