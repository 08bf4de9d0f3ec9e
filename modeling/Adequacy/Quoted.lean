namespace Adequacy

/-- A number in lower-case hexadecimal digits. -/
def hexText (n : Nat) : String := String.ofList (Nat.toDigits 16 n)

/-- Characters that a quoted text shows by their number: controls, format characters, private and
unassigned ones. -/
def isHidden (c : Char) : Bool :=
  let n := c.toNat
  n < 0x20 || (0x7f ≤ n && n < 0xa0) || n == 0xad || (0x200b ≤ n && n ≤ 0x200f) ||
    (0x2028 ≤ n && n ≤ 0x202e) || (0x2060 ≤ n && n ≤ 0x206f) || (0xe000 ≤ n && n ≤ 0xf8ff) ||
    n == 0xfeff || (0xfff0 ≤ n && n ≤ 0xfffb) || (0xe0000 ≤ n)

/-- A character inside a text that messages show between the given quotes. -/
def showChar (quote c : Char) : List Char :=
  if c = quote ∨ c = '\\' then ['\\', c]
  else if c = '\n' then ['\\', 'n']
  else if c = '\r' then ['\\', 'r']
  else if c = '\t' then ['\\', 't']
  else if c = '\x00' then ['\\', '0']
  else if isHidden c then "\\u\x7b".toList ++ (hexText c.toNat).toList ++ ['\x7d']
  else [c]

/-- A text between double quotes, as messages show it. -/
def quotedText (s : String) : String :=
  "\"" ++ String.ofList (s.toList.flatMap (showChar '"')) ++ "\""

/-- A character between single quotes, as messages show it. -/
def quotedChar (c : Char) : String :=
  String.ofList ('\'' :: showChar '\'' c ++ ['\''])

end Adequacy
