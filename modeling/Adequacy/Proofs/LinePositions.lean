import Adequacy.Proofs.TextSlice
import Adequacy.SourceRange
import Mathlib

namespace Adequacy

/-- The number of bytes in front of a line of a text, its lines counted from 0. -/
def lineStart : Nat → List Char → Nat
  | 0, _ => 0
  | _ + 1, [] => 0
  | n + 1, c :: cs => c.utf8Size + if c = '\n' then lineStart n cs else lineStart (n + 1) cs

/-- The number of line feeds in front of an offset. -/
def lineFeeds (offset : Nat) (cs : List Char) : Nat := (takeBytes offset cs).count '\n'

section lineStarts

variable {pos offset n : Nat} {cs : List Char}

theorem lt_of_mem_lineStarts {start : Nat} (h : start ∈ lineStarts pos cs) : pos < start := by
  induction cs generalizing pos with
  | nil => cases h
  | cons c cs ih =>
    have hc := c.utf8Size_pos
    simp only [lineStarts] at h
    split at h
    next =>
      rcases List.mem_cons.mp h with rfl | h
      · omega
      · have := ih h
        omega
    next =>
      have := ih h
      omega

theorem le_of_mem_lineStarts_cons {c : Char} {start : Nat} (h : start ∈ lineStarts pos (c :: cs)) :
    pos + c.utf8Size ≤ start := by
  simp only [lineStarts] at h
  split at h
  next =>
    rcases List.mem_cons.mp h with rfl | h
    · exact Nat.le_refl _
    · exact Nat.le_of_lt (lt_of_mem_lineStarts h)
  next => exact Nat.le_of_lt (lt_of_mem_lineStarts h)

theorem pairwise_lineStarts (pos : Nat) (cs : List Char) :
    (lineStarts pos cs).Pairwise (· < ·) := by
  induction cs generalizing pos with
  | nil => exact .nil
  | cons c cs ih =>
    simp only [lineStarts]
    split
    next => exact .cons (fun _ h => lt_of_mem_lineStarts h) (ih _)
    next => exact ih _

theorem takeWhile_eq_nil_of_lt {starts : List Nat} (h : ∀ start ∈ starts, offset < start) :
    starts.takeWhile (· ≤ offset) = [] := by
  refine List.takeWhile_eq_nil_iff.mpr fun hpos hle => ?_
  have hlt := h _ (List.get_mem starts ⟨0, hpos⟩)
  have hle := of_decide_eq_true hle
  omega

/-- The lines behind the first one that start up to an offset are as many as the line feeds in
front of it. -/
theorem length_takeWhile_lineStarts (h : pos ≤ offset) :
    ((lineStarts pos cs).takeWhile (· ≤ offset)).length = lineFeeds (offset - pos) cs := by
  induction cs generalizing pos with
  | nil => rfl
  | cons c cs ih =>
    by_cases hc : c.utf8Size ≤ offset - pos
    · have hnext : pos + c.utf8Size ≤ offset := by omega
      have hrest := ih hnext
      rw [Nat.sub_add_eq] at hrest
      simp only [lineStarts, lineFeeds, takeBytes, if_pos hc]
      split
      next hfeed =>
        rw [List.takeWhile_cons_of_pos (by simpa using hnext), List.length_cons, hrest, hfeed,
          List.count_cons_self]
        rfl
      next hfeed =>
        rw [hrest, List.count_cons_of_ne hfeed]
        rfl
    · -- The character reaches past the offset, and all that starts behind it does.
      have hnone : (lineStarts pos (c :: cs)).takeWhile (· ≤ offset) = [] := by
        refine takeWhile_eq_nil_of_lt fun start hmem => ?_
        have hle := le_of_mem_lineStarts_cons hmem
        omega
      rw [hnone, lineFeeds, takeBytes, if_neg hc]
      rfl

theorem getElem_lineStarts (h : n < (lineStarts pos cs).length) :
    (lineStarts pos cs)[n] = pos + lineStart (n + 1) cs := by
  induction cs generalizing pos n with
  | nil => cases h
  | cons c cs ih =>
    simp only [lineStarts, lineStart]
    by_cases hfeed : c = '\n'
    · simp only [if_pos hfeed]
      cases n with
      | zero => rw [lineStart, Nat.add_zero, List.getElem_cons_zero]
      | succ n =>
        simp only [lineStarts, if_pos hfeed, List.length_cons] at h
        rw [List.getElem_cons_succ, ih (by omega)]
        omega
    · simp only [lineStarts, if_neg hfeed] at h ⊢
      rw [ih h]
      omega

/-- Every line feed in front of a line takes a byte. -/
theorem le_lineStart (h : n ≤ cs.count '\n') : n ≤ lineStart n cs := by
  induction cs generalizing n with
  | nil =>
    rw [List.count_nil] at h
    omega
  | cons c cs ih =>
    cases n with
    | zero => exact Nat.zero_le _
    | succ n =>
      have hc := c.utf8Size_pos
      rw [lineStart]
      split
      next hfeed =>
        rw [hfeed, List.count_cons_self] at h
        have := ih (n := n) (by omega)
        omega
      next hfeed =>
        rw [List.count_cons_of_ne hfeed] at h
        have := ih h
        omega

theorem takeBytes_prefix_of_le (h : n ≤ offset) : takeBytes n cs <+: takeBytes offset cs := by
  induction cs generalizing n offset with
  | nil => exact List.nil_prefix
  | cons c cs ih =>
    rw [takeBytes, takeBytes]
    split
    next hc =>
      rw [if_pos (by omega)]
      exact (List.prefix_cons_inj c).mpr (ih (by omega))
    next => exact List.nil_prefix

theorem lineFeeds_mono (cs : List Char) (h : n ≤ offset) :
    lineFeeds n cs ≤ lineFeeds offset cs :=
  (takeBytes_prefix_of_le h).sublist.count_le _

end lineStarts

/-- A position is that of an offset in a text: its line is counted by the line feeds in front of the
offset, its column by the bytes behind the start of the line. -/
structure Position.IsAt (text : String) (offset : Nat) (p : Position) : Prop where
  index_eq : p.index = offset
  line_eq : p.line = lineFeeds offset text.toList + 1
  lineStart_le : lineStart (lineFeeds offset text.toList) text.toList ≤ offset
  column_eq : p.column = offset - lineStart (lineFeeds offset text.toList) text.toList

/-- The offset at which a line, counted from 1, has a column. -/
def offsetOf (text : String) (line column : Nat) : Nat := lineStart (line - 1) text.toList + column

namespace Position.IsAt

variable {text : String} {a b offset : Nat} {p q : Position}

theorem offsetOf_eq (h : p.IsAt text offset) : offsetOf text p.line p.column = offset := by
  have hle := h.lineStart_le
  rw [offsetOf, h.line_eq, Nat.add_sub_cancel, h.column_eq]
  omega

/-- Positions are ordered, by line and column, as the offsets are. -/
theorem lt_of_lt (hp : p.IsAt text a) (hq : q.IsAt text b) (h : a < b) :
    toLex (p.line, p.column) < toLex (q.line, q.column) := by
  have hlines := lineFeeds_mono text.toList (Nat.le_of_lt h)
  refine Prod.Lex.toLex_lt_toLex.mpr ?_
  rcases Nat.lt_or_eq_of_le hlines with hlt | heq
  · left
    rw [hp.line_eq, hq.line_eq]
    omega
  · right
    have hp' := hp.lineStart_le
    refine ⟨by rw [hp.line_eq, hq.line_eq, heq], ?_⟩
    rw [hp.column_eq, hq.column_eq, ← heq]
    dsimp only
    omega

/-- Line and column are not more together than the bytes up to the offset. -/
theorem line_add_column_le (h : p.IsAt text offset) : p.line + p.column ≤ offset + 1 := by
  have hcount : lineFeeds offset text.toList ≤ text.toList.count '\n' := by
    conv_rhs => rw [← takeBytes_append_dropBytes offset text.toList, List.count_append]
    exact Nat.le_add_right _ _
  have hstart := le_lineStart hcount
  have hle := h.lineStart_le
  rw [h.line_eq, h.column_eq]
  omega

end Position.IsAt

namespace LineIndex

variable {text : String} {offset : Nat}

theorem pairwise_starts (text : String) : (ofText text).starts.Pairwise (· < ·) :=
  .cons (fun _ h => lt_of_mem_lineStarts h) (pairwise_lineStarts 0 _)

theorem takeWhile_starts (text : String) (offset : Nat) :
    ((ofText text).starts.takeWhile (· ≤ offset)).length = lineFeeds offset text.toList + 1 := by
  have hbehind : ((lineStarts 0 text.toList).takeWhile (· ≤ offset)).length =
      lineFeeds (offset - 0) text.toList := length_takeWhile_lineStarts (Nat.zero_le offset)
  rw [ofText, List.takeWhile_cons_of_pos (by simp), List.length_cons, hbehind, Nat.sub_zero]

theorem getElem_starts {n : Nat} (h : n < (ofText text).starts.length) :
    (ofText text).starts[n] = lineStart n text.toList := by
  cases n with
  | zero =>
    cases text.toList <;> rfl
  | succ n =>
    have hn : n < (lineStarts 0 text.toList).length := Nat.lt_of_succ_lt_succ h
    exact (getElem_lineStarts hn).trans (Nat.zero_add _)

theorem position_isAt (text : String) (offset : Nat) :
    ((ofText text).position offset).IsAt text offset := by
  have hlength := takeWhile_starts text offset
  generalize hbefore : (ofText text).starts.takeWhile (· ≤ offset) = before at hlength
  have hne : before ≠ [] := by
    rintro rfl
    cases hlength
  -- The last start that is not past the offset is that of the line.
  have hlast : before.getLast hne = lineStart (lineFeeds offset text.toList) text.toList := by
    have hprefix : before <+: (ofText text).starts := hbefore ▸ List.takeWhile_prefix _
    rw [List.getLast_eq_getElem, hprefix.getElem, getElem_starts, hlength, Nat.add_sub_cancel]
  have hle : before.getLast hne ≤ offset := by
    have hmem : before.getLast hne ∈ (ofText text).starts.takeWhile (· ≤ offset) :=
      hbefore ▸ List.getLast_mem hne
    simpa using List.mem_takeWhile_imp hmem
  refine ⟨rfl, ?_, hlast ▸ hle, ?_⟩
  · rw [position, hbefore, hlength]
  · rw [position, hbefore, ← hlast, List.getLastD_eq_getLast?, List.getLast?_eq_some_getLast hne]
    rfl

/-- Where the starts part into those up to an offset and those behind it. -/
theorem eq_of_parts {n : Nat} (hn : n ≤ (ofText text).starts.length)
    (hup : ∀ start ∈ (ofText text).starts.take n, start ≤ offset)
    (hbehind : ∀ start ∈ (ofText text).starts.drop n, offset < start) :
    n = lineFeeds offset text.toList + 1 := by
  rw [← takeWhile_starts, ← List.take_append_drop n (ofText text).starts,
    List.takeWhile_append_of_pos (by simpa using hup), takeWhile_eq_nil_of_lt hbehind,
    List.append_nil, List.length_take, Nat.min_eq_left hn]

/-- Exactly the offsets up to the end of a text have a position. It is told by the line feeds in
front of the offset, and by any search for the place where the starts of the lines, which are in
order, pass the offset. Positions are ordered as the offsets are and tell them apart. A line and a
column are at most one more than the offset together, so they fit into 32 bits if it is below
`2 ^ 32 - 1`. -/
theorem position?_locates (text : String) (offset : Nat) :
    ((ofText text).position? offset = none ↔ text.utf8ByteSize < offset) ∧
    (∀ p, (ofText text).position? offset = some p →
      p.IsAt text offset ∧ offsetOf text p.line p.column = offset ∧
      p.line + p.column ≤ offset + 1 ∧
      (ofText text).starts.Pairwise (· < ·) ∧
      ∀ n ≤ (ofText text).starts.length,
        (∀ start ∈ (ofText text).starts.take n, start ≤ offset) →
        (∀ start ∈ (ofText text).starts.drop n, offset < start) → n = p.line) ∧
    ∀ later p q, offset < later → (ofText text).position? offset = some p →
      (ofText text).position? later = some q →
        toLex (p.line, p.column) < toLex (q.line, q.column) := by
  have hat {offset : Nat} {p : Position} (h : (ofText text).position? offset = some p) :
      p.IsAt text offset := by
    obtain ⟨-, h⟩ := Option.ite_none_right_eq_some.mp h
    exact Option.some.inj h ▸ position_isAt text offset
  refine ⟨?_, fun p hp => ?_, fun later p q hlt hp hq => (hat hp).lt_of_lt (hat hq) hlt⟩
  · have hsize : (ofText text).size = text.utf8ByteSize := rfl
    rw [position?, hsize]
    constructor
    · intro hnone
      by_contra hle
      rw [if_pos (by omega)] at hnone
      cases hnone
    · intro hlt
      exact if_neg (by omega)
  · refine ⟨hat hp, (hat hp).offsetOf_eq, (hat hp).line_add_column_le, pairwise_starts text,
      fun n hn hup hbehind => ?_⟩
    rw [(hat hp).line_eq]
    exact eq_of_parts hn hup hbehind

end LineIndex

end Adequacy
