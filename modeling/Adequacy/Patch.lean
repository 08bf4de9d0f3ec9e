import Adequacy.Span

namespace Adequacy

/-- Replaces the text under a span. -/
structure Edit where
  span : Span
  text : String
  deriving DecidableEq, Repr, Inhabited

/-- Edits that are applied to one text together. -/
abbrev Patch := List Edit

/-- Why a patch does not fit a text. -/
inductive PatchError where
  | outOfBounds (span : Span) (size : Nat)
  | notCharBoundary (offset : Nat)
  | overlap (first second : Span)
  deriving DecidableEq, Repr

namespace PatchError

def message : PatchError → String
  | outOfBounds s size =>
    s!"edit {s.start}..{s.stop} is out of bounds for a text of {size} bytes"
  | notCharBoundary offset => s!"edit boundary {offset} is not a character boundary"
  | overlap a b => s!"edits {a.start}..{a.stop} and {b.start}..{b.stop} overlap"

end PatchError

namespace Edit

def insert (offset : Nat) (text : String) : Edit := ⟨.point offset, text⟩

/-- The change in length that the edit causes. -/
def delta (e : Edit) : Int := (e.text.utf8ByteSize : Int) - e.span.length

/-- Edits compare by start, then by end. -/
def notAfter (a b : Edit) : Bool :=
  a.span.start < b.span.start || (a.span.start == b.span.start && a.span.stop ≤ b.span.stop)

/-- Checks that the edit lies in the text and splits no character. -/
def check (cs : List Char) (e : Edit) : Except PatchError Unit :=
  if e.span.start > e.span.stop ∨ e.span.stop > byteSize cs then
    .error (.outOfBounds e.span (byteSize cs))
  else if !isBoundary e.span.start cs then
    .error (.notCharBoundary e.span.start)
  else if !isBoundary e.span.stop cs then
    .error (.notCharBoundary e.span.stop)
  else
    .ok ()

end Edit

namespace Patch

/-- The change in length that the whole patch causes. -/
def delta : Patch → Int
  | [] => 0
  | e :: later => e.delta + delta later

/-- The edits by start and end; equal spans keep the order of the patch. -/
def inOrder (p : Patch) : Patch := p.mergeSort Edit.notAfter

/-- Checks that no edit starts before the one in front of it ends. -/
def checkOverlap : Patch → Except PatchError Unit
  | a :: b :: rest =>
    if a.span.stop > b.span.start then .error (.overlap a.span b.span)
    else checkOverlap (b :: rest)
  | _ => .ok ()

/-- Carries out ordered edits on a text that has been read up to offset `copied`. -/
def splice (rest : List Char) (copied : Nat) : Patch → List Char
  | [] => rest
  | e :: later =>
    takeBytes (e.span.start - copied) rest ++ e.text.toList ++
      splice (dropBytes (e.span.stop - copied) rest) e.span.stop later

/-- The edits that undo ordered edits of a text, when those before them moved it by `shift`. -/
def undo (cs : List Char) (shift : Int) : Patch → Patch
  | [] => []
  | e :: later =>
    let start := (e.span.start + shift).toNat
    ⟨⟨start, start + e.text.utf8ByteSize⟩,
      String.ofList (dropBytes e.span.start (takeBytes e.span.stop cs))⟩ ::
      undo cs (shift + e.delta) later

/-- Applies all edits at once. The answer is the new text and the patch that takes it back. -/
def apply (p : Patch) (text : String) : Except PatchError (String × Patch) := do
  let cs := text.toList
  let edits := p.inOrder
  edits.forM (Edit.check cs)
  checkOverlap edits
  return (String.ofList (splice cs 0 edits), undo cs 0 edits)

end Patch

end Adequacy
