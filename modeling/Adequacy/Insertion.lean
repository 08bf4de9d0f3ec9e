import Adequacy.ByteText

namespace Adequacy

/-- A text to be put in front of the character at an offset of a source. -/
structure Insertion where
  offset : Nat
  text : String
  deriving DecidableEq, Repr

namespace Insertion

/-- Copies a source that has been read up to offset `copied`, putting each insertion in its
place; an offset that was passed already takes its text at once. `none` if an offset lies inside
a character. -/
def weave (rest : List Char) (copied : Nat) : List Insertion → Option (List Char)
  | [] => some rest
  | i :: later =>
    if copied < i.offset then
      let gap := i.offset - copied
      if isBoundary gap rest then
        (weave (dropBytes gap rest) i.offset later).map fun tail =>
          takeBytes gap rest ++ i.text.toList ++ tail
      else
        none
    else
      (weave rest copied later).map (i.text.toList ++ ·)

/-- Insertions by offset; those at one offset stay in the order they were recorded. -/
def inOrder (insertions : List Insertion) : List Insertion :=
  insertions.mergeSort fun a b => a.offset ≤ b.offset

/-- The source with every insertion made. An offset past the end counts as the end. -/
def render? (source : String) (insertions : List Insertion) : Option String :=
  let clamped := (inOrder insertions).map fun i => { i with offset := min i.offset source.utf8ByteSize }
  (weave source.toList 0 clamped).map String.ofList

end Insertion

end Adequacy
