import Adequacy.ByteText

namespace Adequacy

/-- The bytes from `start` up to, but not including, `stop`. -/
structure Span where
  start : Nat
  stop : Nat
  deriving DecidableEq, Repr, Inhabited

namespace Span

/-- The insertion point at an offset. -/
def point (offset : Nat) : Span := ⟨offset, offset⟩

def isEmpty (s : Span) : Bool := s.start == s.stop

def length (s : Span) : Nat := s.stop - s.start

/-- The span with its end moved back into a text of `size` bytes, and its start to its end. -/
def clamp (size : Nat) (s : Span) : Span :=
  let stop := min s.stop size
  ⟨min s.start stop, stop⟩

/-- The covered text; `none` when an end is past the text or splits a character. -/
def text? (s : Span) (source : String) : Option String :=
  slice? source s.start s.stop

/-- The covered text, empty when an end is past the text or splits a character. -/
def textD (s : Span) (source : String) : String :=
  (s.text? source).getD ""

end Span

end Adequacy
