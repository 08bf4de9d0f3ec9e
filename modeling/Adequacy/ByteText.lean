namespace Adequacy

/-- The number of bytes a list of characters takes in UTF-8. -/
def byteSize : List Char → Nat
  | [] => 0
  | c :: cs => c.utf8Size + byteSize cs

/-- The longest run of leading characters that fits into `n` bytes. -/
def takeBytes : Nat → List Char → List Char
  | _, [] => []
  | n, c :: cs => if c.utf8Size ≤ n then c :: takeBytes (n - c.utf8Size) cs else []

/-- What is left after the longest run of leading characters that fits into `n` bytes. -/
def dropBytes : Nat → List Char → List Char
  | _, [] => []
  | n, c :: cs => if c.utf8Size ≤ n then dropBytes (n - c.utf8Size) cs else c :: cs

/-- Whether offset `n` lies between two characters, or at an end of the text. -/
def isBoundary (n : Nat) (cs : List Char) : Bool :=
  byteSize (takeBytes n cs) == n

@[simp] theorem byteSize_nil : byteSize [] = 0 := rfl

@[simp] theorem byteSize_cons (c : Char) (cs : List Char) :
    byteSize (c :: cs) = c.utf8Size + byteSize cs := rfl

@[simp] theorem byteSize_append (as bs : List Char) :
    byteSize (as ++ bs) = byteSize as + byteSize bs := by
  induction as with
  | nil => simp
  | cons c cs ih => simp [ih, Nat.add_assoc]

theorem takeBytes_append_dropBytes (n : Nat) (cs : List Char) :
    takeBytes n cs ++ dropBytes n cs = cs := by
  induction cs generalizing n with
  | nil => simp [takeBytes, dropBytes]
  | cons c cs ih =>
    by_cases h : c.utf8Size ≤ n
    · simp [takeBytes, dropBytes, h, ih]
    · simp [takeBytes, dropBytes, h]

theorem takeBytes_byteSize_append (as bs : List Char) :
    takeBytes (byteSize as) (as ++ bs) = as := by
  induction as with
  | nil =>
    cases bs with
    | nil => rfl
    | cons b bs =>
      have := b.utf8Size_pos
      simp [takeBytes, show ¬ b.utf8Size ≤ 0 by omega]
  | cons c cs ih => simp [takeBytes, ih]

theorem dropBytes_byteSize_append (as bs : List Char) :
    dropBytes (byteSize as) (as ++ bs) = bs := by
  have h := takeBytes_append_dropBytes (byteSize as) (as ++ bs)
  rw [takeBytes_byteSize_append] at h
  exact List.append_cancel_left h

/-- An offset is a boundary exactly when the text splits there. -/
theorem isBoundary_iff {n : Nat} {cs : List Char} :
    isBoundary n cs = true ↔ ∃ as bs, cs = as ++ bs ∧ byteSize as = n := by
  constructor
  · intro h
    exact ⟨takeBytes n cs, dropBytes n cs, (takeBytes_append_dropBytes n cs).symm,
      by simpa [isBoundary] using h⟩
  · rintro ⟨as, bs, rfl, rfl⟩
    simp [isBoundary, takeBytes_byteSize_append]

/-- The characters between two byte offsets, if both fall between characters. -/
def sliceChars? (cs : List Char) (start stop : Nat) : Option (List Char) :=
  if start ≤ stop && isBoundary start cs && isBoundary stop cs then
    some (dropBytes start (takeBytes stop cs))
  else
    none

/-- The text between two byte offsets, if both fall between characters. -/
def slice? (text : String) (start stop : Nat) : Option String :=
  (sliceChars? text.toList start stop).map String.ofList

/-- The text before a byte offset, if it falls between characters. -/
def textBefore? (text : String) (stop : Nat) : Option String :=
  slice? text 0 stop

/-- The characters from a byte offset on, if it falls between characters. -/
def charsFrom? (text : String) (start : Nat) : Option (List Char) :=
  let cs := text.toList
  if isBoundary start cs then some (dropBytes start cs) else none

end Adequacy
