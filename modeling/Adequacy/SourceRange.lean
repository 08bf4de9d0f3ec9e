import Adequacy.Span

namespace Adequacy

/-- The offsets just behind each line feed, for text that begins at offset `pos`. -/
def lineStarts (pos : Nat) : List Char → List Nat
  | [] => []
  | c :: cs =>
    let next := pos + c.utf8Size
    if c = '\n' then next :: lineStarts next cs else lineStarts next cs

/-- The length of a text and the offset at which each of its lines begins. -/
structure LineIndex where
  size : Nat
  starts : List Nat
  deriving Repr

/-- An offset with its line, counted from 1, and its byte column, counted from 0. -/
structure Position where
  index : Nat
  line : Nat
  column : Nat
  deriving DecidableEq, Repr, Inhabited

/-- A region of a source as two positions. -/
structure SourceRange where
  start : Position
  stop : Position
  deriving DecidableEq, Repr, Inhabited

/-- A span that does not fit a source of `size` bytes. -/
structure SpanError where
  span : Span
  size : Nat
  deriving DecidableEq, Repr

namespace LineIndex

def ofText (text : String) : LineIndex :=
  ⟨text.utf8ByteSize, 0 :: lineStarts 0 text.toList⟩

/-- The position of an offset: its line is the last one that starts at or before it. -/
def position (i : LineIndex) (offset : Nat) : Position :=
  let before := i.starts.takeWhile (· ≤ offset)
  ⟨offset, before.length, offset - before.getLastD 0⟩

/-- The position of an offset that is not past the end of the text. -/
def position? (i : LineIndex) (offset : Nat) : Option Position :=
  if offset ≤ i.size then some (i.position offset) else none

/-- The range of a span that lies in the text. -/
def range? (i : LineIndex) (s : Span) : Except SpanError SourceRange :=
  if s.stop < s.start then .error ⟨s, i.size⟩
  else
    match i.position? s.start, i.position? s.stop with
    | some start, some stop => .ok ⟨start, stop⟩
    | _, _ => .error ⟨s, i.size⟩

/-- The range of a span that is moved into the text. -/
def clamped (i : LineIndex) (s : Span) : SourceRange :=
  (i.range? (s.clamp i.size)).toOption.getD default

theorem position?_of_le {i : LineIndex} {offset : Nat} (h : offset ≤ i.size) :
    i.position? offset = some (i.position offset) :=
  if_pos h

theorem range?_of_le {i : LineIndex} {s : Span} (h : s.start ≤ s.stop) (hs : s.stop ≤ i.size) :
    i.range? s = .ok ⟨i.position s.start, i.position s.stop⟩ := by
  rw [range?, if_neg (Nat.not_lt.mpr h), position?_of_le (Nat.le_trans h hs), position?_of_le hs]

/-- A span that was moved into the text has a range. -/
theorem range?_clamp (i : LineIndex) (s : Span) : i.range? (s.clamp i.size) =
    .ok ⟨i.position (min s.start (min s.stop i.size)), i.position (min s.stop i.size)⟩ :=
  range?_of_le (Nat.min_le_right _ _) (Nat.min_le_right _ _)

theorem clamped_eq (i : LineIndex) (s : Span) : i.clamped s =
    ⟨i.position (min s.start (min s.stop i.size)), i.position (min s.stop i.size)⟩ := by
  rw [clamped, range?_clamp]
  rfl

end LineIndex

namespace SpanError

def message (e : SpanError) : String :=
  s!"span {e.span.start}..{e.span.stop} is out of bounds for a source of {e.size} bytes"

end SpanError

namespace Position

/-- The line and the column with a colon between them. -/
def display (p : Position) : String := s!"{p.line}:{p.column}"

end Position

namespace SourceRange

def display (r : SourceRange) : String := r.start.display ++ "-" ++ r.stop.display

/-- The span between the two positions. -/
def span (r : SourceRange) : Span := ⟨r.start.index, r.stop.index⟩

/-- The covered text of the source the range was made for. -/
def text? (r : SourceRange) (source : String) : Option String := r.span.text? source

end SourceRange

/-- The range of a span in a text. -/
def SourceRange.ofSpan? (text : String) (s : Span) : Except SpanError SourceRange :=
  (LineIndex.ofText text).range? s

end Adequacy
