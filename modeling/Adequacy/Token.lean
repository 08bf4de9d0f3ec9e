import Adequacy.Span

namespace Adequacy

/-- The kinds of token that operators are looked up among. -/
inductive TokenKind where
  | lParen | rParen | lBrace | rBrace | lBracket | rBracket
  | semi | comma | colon | dot | spread | question | questionDot | arrow
  | plus | minus | star | slash | percent | starStar | plusPlus | minusMinus
  | lt | gt | ltEq | gtEq | eqEq | notEq | eqEqEq | notEqEq
  | shl | shr | uShr | amp | pipe | caret | tilde | bang
  | ampAmp | pipePipe | questionQuestion | eq | compoundAssign
  | hash | backtick | ident | number | string | eof | error
  deriving DecidableEq, Repr

/-- The tokens with a fixed spelling. A spelling stands before every shorter one that begins it,
so the first that fits is the longest. -/
def punctuators : List (String × TokenKind) :=
  [(">>>=", .compoundAssign),
   ("...", .spread), ("===", .eqEqEq), ("!==", .notEqEq), (">>>", .uShr), ("**=", .compoundAssign),
   ("<<=", .compoundAssign), (">>=", .compoundAssign), ("&&=", .compoundAssign),
   ("||=", .compoundAssign), ("??=", .compoundAssign),
   ("?.", .questionDot), ("=>", .arrow), ("**", .starStar), ("++", .plusPlus), ("--", .minusMinus),
   ("<=", .ltEq), (">=", .gtEq), ("==", .eqEq), ("!=", .notEq), ("<<", .shl), (">>", .shr),
   ("&&", .ampAmp), ("||", .pipePipe), ("??", .questionQuestion),
   ("+=", .compoundAssign), ("-=", .compoundAssign), ("*=", .compoundAssign),
   ("/=", .compoundAssign), ("%=", .compoundAssign), ("&=", .compoundAssign),
   ("|=", .compoundAssign), ("^=", .compoundAssign),
   ("(", .lParen), (")", .rParen), ("\x7b", .lBrace), ("\x7d", .rBrace), ("[", .lBracket),
   ("]", .rBracket), (";", .semi), (",", .comma), (":", .colon), (".", .dot), ("?", .question),
   ("+", .plus), ("-", .minus), ("*", .star), ("/", .slash), ("%", .percent), ("<", .lt),
   (">", .gt), ("&", .amp), ("|", .pipe), ("^", .caret), ("~", .tilde), ("!", .bang), ("=", .eq),
   ("#", .hash), ("\x60", .backtick)]

/-- A token with its place and its spelling. The token at the end of the text has no spelling. -/
structure Token where
  kind : TokenKind
  span : Span
  text : String
  deriving DecidableEq, Repr

namespace Token

/-- The blanks between tokens. Other white space is no blank here and becomes an error token. -/
def isBlank (c : Char) : Bool :=
  c == ' ' || c == '\t' || c == '\r' || c == '\n' || c == '\x0c'

def isIdentStart (c : Char) : Bool := c.isAlpha || c == '_' || c == '$'

def isIdentPart (c : Char) : Bool := c.isAlphanum || c == '_' || c == '$'

def isNumberPart (c : Char) : Bool := c.isAlphanum || c == '_' || c == '.'

/-- The number of characters up to and with the first comment end, if there is one. -/
def blockEnd? : List Char → Option Nat
  | '*' :: '/' :: _ => some 2
  | _ :: cs => (blockEnd? cs).map (· + 1)
  | [] => none

/-- Reads a quoted text behind its opening quote: the number of characters up to and with the
closing quote, and whether there was one. A backslash takes the next character with it. Without a
closing quote the count stops before a line feed, or behind a backslash in front of one. -/
def quoted (quote : Char) : List Char → Nat × Bool
  | [] => (0, false)
  | ['\\'] => (1, false)
  | '\\' :: '\n' :: _ => (1, false)
  | '\\' :: _ :: cs => let r := quoted quote cs; (r.1 + 2, r.2)
  | c :: cs =>
    if c = quote then (1, true)
    else if c = '\n' then (0, false)
    else let r := quoted quote cs; (r.1 + 1, r.2)

/-- The longest fixed spelling that a text begins with, or else an error of one character. -/
def munchFixed (cs : List Char) : Option TokenKind × Nat :=
  match punctuators.find? fun p => p.1.toList.isPrefixOf cs with
  | some (text, kind) => (some kind, text.length - 1)
  | none => (some .error, 0)

/-- The first lexeme of a text, as its kind (none for blanks and comments) and the number of
characters it takes after its first one. The longest spelling wins. -/
def munch (c : Char) (cs : List Char) : Option TokenKind × Nat :=
  if isBlank c then (none, (cs.takeWhile isBlank).length)
  else if isIdentStart c then (some .ident, (cs.takeWhile isIdentPart).length)
  else if c.isDigit then (some .number, (cs.takeWhile isNumberPart).length)
  else if c = '"' ∨ c = '\'' then
    let (n, closed) := quoted c cs
    (some (if closed then .string else .error), n)
  else if c = '/' then
    match cs with
    | '/' :: line => (none, 1 + (line.takeWhile (· ≠ '\n')).length)
    | '*' :: body =>
      match blockEnd? body with
      | some n => (none, 1 + n)
      | none => munchFixed (c :: cs)
    | _ => munchFixed (c :: cs)
  else munchFixed (c :: cs)

/-- The tokens of a text that begins at offset `pos`, with the token at its end. -/
def list (pos : Nat) : List Char → List Token
  | [] => [⟨.eof, .point pos, ""⟩]
  | c :: cs =>
    let (kind?, n) := munch c cs
    let text := c :: cs.take n
    let next := pos + byteSize text
    let later := list next (cs.drop n)
    match kind? with
    | some kind => ⟨kind, ⟨pos, next⟩, String.ofList text⟩ :: later
    | none => later
termination_by cs => cs.length
decreasing_by exact Nat.lt_succ_of_le (List.drop_sublist ..).length_le

/-- The tokens of a source from an offset on, if the offset falls between characters. -/
def from? (source : String) (offset : Nat) : Option (List Token) :=
  (charsFrom? source offset).map (list offset)

/-- Steps over blanks, comments and closing parentheses to a token with the expected spelling. -/
def seek (expected : String) (pos : Nat) : List Char → Option Span
  | [] => none
  | c :: cs =>
    let (kind?, n) := munch c cs
    let text := c :: cs.take n
    let next := pos + byteSize text
    match kind? with
    | none => seek expected next (cs.drop n)
    | some kind =>
      if String.ofList text = expected then some ⟨pos, next⟩
      else if kind = .rParen then seek expected next (cs.drop n)
      else none
termination_by cs => cs.length
decreasing_by all_goals exact Nat.lt_succ_of_le (List.drop_sublist ..).length_le

/-- The next token behind an offset and any closing parentheses, if it has the expected spelling. -/
def find? (source : String) (offset : Nat) (expected : String) : Option Span :=
  (charsFrom? source offset).bind (seek expected offset)

end Token

end Adequacy
