import Adequacy.Motion
import Adequacy.NameChar
import Adequacy.SyntaxError

namespace Adequacy

/-- What a program's text is read as. Names and keywords are words; whether a word may be used as
a name depends on where it stands. -/
inductive Lexeme where
  | punctuator (text : String)
  | word (text : String)
  | string (value raw : String)
  | number
  | bigInt
  /- A run of template text up to an interpolation or the closing mark, with the first bad escape
  in it. -/
  | templateText (raw : String) (bad : Option SyntaxError) (isLast : Bool)
  | regex (flags : List Char)
  | bad (error : SyntaxError)
  | eof
  deriving DecidableEq, Repr

/-- A lexeme with its place, and whether a line ends between it and the one before. -/
structure Scanned where
  lexeme : Lexeme
  span : Span
  afterNewline : Bool
  deriving DecidableEq, Repr

/-- The unread text of a program, with the faults in it that do not keep it from being read. Those
in `moduleFaults` count only if the program turns out to be a module; `inModule` tells whether a
declaration has shown that it is. -/
structure Scanner where
  rest : List Char
  pos : Nat
  faults : List SyntaxError := []
  moduleFaults : List SyntaxError := []
  inModule : Bool := false

namespace Scanner

/-- Skips a character. -/
def skip (s : Scanner) : Scanner :=
  match s.rest with
  | [] => s
  | c :: rest => { s with rest := rest, pos := s.pos + c.utf8Size }

/-- Skips the leading characters that a test accepts. -/
def skipWhile (test : Char → Bool) (s : Scanner) : Scanner :=
  { s with rest := s.rest.dropWhile test, pos := s.pos + byteSize (s.rest.takeWhile test) }

def addFault (s : Scanner) (e : SyntaxError) : Scanner := { s with faults := s.faults ++ [e] }

/-- Adds a fault that counts where the code is strict or belongs to a module. -/
def addStrict (s : Scanner) (strict : Bool) (e : SyntaxError) : Scanner :=
  if strict || s.inModule then s.addFault e
  else { s with moduleFaults := s.moduleFaults ++ [e] }

/-- The program is a module from here on, and what was wrong for one before counts. -/
def enterModule (s : Scanner) : Scanner :=
  { s with faults := s.faults ++ s.moduleFaults, moduleFaults := [], inModule := true }

/-- Text is read from its front on, and no fault is forgotten. -/
def Leads (s t : Scanner) : Prop :=
  ∃ read, s.rest = read ++ t.rest ∧ t.pos = s.pos + byteSize read ∧ s.faults <+: t.faults

namespace Leads

theorem refl (s : Scanner) : Leads s s := ⟨[], rfl, rfl, List.prefix_rfl⟩

theorem trans {s t u : Scanner} (h : Leads s t) (h' : Leads t u) : Leads s u := by
  obtain ⟨as, hrest, hpos, hfaults⟩ := h
  obtain ⟨bs, hrest', hpos', hfaults'⟩ := h'
  refine ⟨as ++ bs, ?_, ?_, hfaults.trans hfaults'⟩
  · rw [hrest, hrest', List.append_assoc]
  · rw [hpos', hpos, byteSize_append, Nat.add_assoc]

theorem skip (s : Scanner) : Leads s s.skip := by
  unfold Scanner.skip
  split
  next => exact refl s
  next c rest h => exact ⟨[c], h, rfl, List.prefix_rfl⟩

theorem skipWhile (test : Char → Bool) (s : Scanner) : Leads s (s.skipWhile test) :=
  ⟨s.rest.takeWhile test, List.takeWhile_append_dropWhile.symm, rfl, List.prefix_rfl⟩

theorem addFault (s : Scanner) (e : SyntaxError) : Leads s (s.addFault e) :=
  ⟨[], rfl, rfl, List.prefix_append s.faults [e]⟩

theorem addStrict (s : Scanner) (strict : Bool) (e : SyntaxError) :
    Leads s (s.addStrict strict e) := by
  unfold Scanner.addStrict
  split
  · exact addFault s e
  · exact ⟨[], rfl, rfl, List.prefix_rfl⟩

end Leads

instance : Motion Scanner := ⟨Leads, Leads.refl, Leads.trans⟩

end Scanner

/-- Reads from the unread text. A fault that stops the reading leaves the text where it was met. -/
abbrev Scan (α : Type) := Moving Unit SyntaxError Scanner α

namespace Scan

def isLineEnd (c : Char) : Bool := c == '\n' || c == '\r' || c == '\u2028' || c == '\u2029'

/-- White space within a line. -/
def isSpace (c : Char) : Bool :=
  c == ' ' || c == '\t' || c == '\x0b' || c == '\x0c' || c == '\u00a0' || c == '\ufeff' ||
    c == '\u1680' || ('\u2000' ≤ c && c ≤ '\u200b') || c == '\u202f' || c == '\u205f' ||
    c == '\u3000'

def get : Scan Scanner := Moving.state

def peek? : Scan (Option Char) := do return (← get).rest.head?

def second? : Scan (Option Char) := do return (← get).rest[1]?

def here : Scan Nat := do return (← get).pos

def skip : Scan Unit := Moving.move (fun _ s => s.skip) fun _ => Scanner.Leads.skip

def skipMany : Nat → Scan Unit
  | 0 => pure ()
  | n + 1 => do skip; skipMany n

/-- Skips a character if it comes next. -/
def eat (c : Char) : Scan Bool := do
  if (← peek?) = some c then
    skip
    return true
  else
    return false

/-- The number of characters that are left, which bounds every loop. -/
def remaining : Scan Nat := do return (← get).rest.length

def stop {α : Type} (fault : SyntaxFault) (span : Span) : Scan α :=
  throw ⟨fault, span⟩

/-- Stops with a fault that reaches from an offset to where the reading is. -/
def stopFrom {α : Type} (start : Nat) (fault : SyntaxFault) : Scan α := do
  stop fault ⟨start, ← here⟩

def note (fault : SyntaxFault) (span : Span) : Scan Unit :=
  Moving.move (fun _ s => s.addFault ⟨fault, span⟩) fun _ s => Scanner.Leads.addFault s _

def noteFrom (start : Nat) (fault : SyntaxFault) : Scan Unit := do
  note fault ⟨start, ← here⟩

/-- Notes a fault that counts in strict code. All code of a module is strict. -/
def noteStrict (strict : Bool) (start : Nat) (fault : SyntaxFault) : Scan Unit := do
  let stop ← here
  Moving.move (fun _ s => s.addStrict strict ⟨fault, ⟨start, stop⟩⟩)
    fun _ s => Scanner.Leads.addStrict s strict _

/-- Skips the rest of a line. -/
def skipLine : Scan Unit :=
  Moving.move (fun _ s => s.skipWhile (!isLineEnd ·)) fun _ => Scanner.Leads.skipWhile _

/-- Skips a block comment behind its opening. The answer tells whether a line ends in it. -/
def skipBlock : Nat → Bool → Scan Bool
  | 0, newline => return newline
  | fuel + 1, newline => do
    match (← get).rest with
    | [] =>
      let stop ← here
      note .unterminatedComment (.point stop)
      return newline
    | '*' :: '/' :: _ => skipMany 2; return newline
    | c :: _ => skip; skipBlock fuel (newline || isLineEnd c)

/-- White space and comments in front of a lexeme. -/
structure Blanks where
  /- Whether a line ends among them. -/
  newline : Bool
  /- Where the first comment between `<!--` or `-->` and a line end begins. -/
  legacy : Option Nat := none

/-- Skips white space and the comments of today. -/
def skipPlain : Nat → Blanks → Scan Blanks
  | 0, read => return read
  | fuel + 1, read => do
    match (← get).rest with
    | '/' :: '/' :: _ => skipLine; skipPlain fuel read
    | '/' :: '*' :: _ =>
      skipMany 2
      let newline ← skipBlock ((← remaining) + 1) read.newline
      skipPlain fuel { read with newline := newline }
    | c :: _ =>
      if isLineEnd c then
        skip
        skipPlain fuel { read with newline := true }
      else if isSpace c then
        skip
        skipPlain fuel read
      else return read
    | [] => return read

/-- Skips white space and comments, also those that only old programs use and modules refuse. One
may begin with `-->` only once a line has ended. -/
def skipBlanks : Nat → Blanks → Scan Blanks
  | 0, read => return read
  | fuel + 1, read => do
    let read ← skipPlain (fuel + 1) read
    let start ← here
    match (← get).rest with
    | '<' :: '!' :: '-' :: '-' :: _ =>
      skipLine
      let read ← skipPlain (fuel + 1) read
      noteStrict false start .legacyComment
      skipBlanks fuel { read with legacy := read.legacy.or (some start) }
    | '-' :: '-' :: '>' :: _ =>
      if read.newline then
        skipMany 2
        noteStrict false start .legacyComment
        skipLine
        skipBlanks fuel { read with legacy := read.legacy.or (some start) }
      else return read
    | _ => return read

def digitValue? (radix : Nat) (c : Char) : Option Nat :=
  let v := if c.isDigit then c.toNat - 48
    else if 'a' ≤ c && c ≤ 'z' then c.toNat - 87
    else if 'A' ≤ c && c ≤ 'Z' then c.toNat - 55
    else radix
  if v < radix then some v else none

/-- The digits that come next. An underscore may stand between two of them. -/
def digits (radix start : Nat) : Nat → Option Char → List Nat → Scan (List Nat)
  | 0, _, read => return read.reverse
  | fuel + 1, previous, read => do
    match ← peek? with
    | some '_' =>
      let next ← second?
      let letters := if radix = 16 then ".X_x" else ".BEO_beo"
      let isBad (c : Option Char) := c.any (letters.toList.contains ·)
      if (next.bind (digitValue? radix)).isNone || isBad previous || isBad next then
        noteFrom start .numberSeparator
      skip
      digits radix start fuel previous read
    | some c =>
      match digitValue? radix c with
      | some v => skip; digits radix start fuel (some c) (v :: read)
      | none => return read.reverse
    | none => return read.reverse

def someDigits (radix : Nat) : Scan (List Nat) := do
  let start ← here
  let ds ← digits radix start ((← remaining) + 1) none []
  if ds.isEmpty then stopFrom start (.missingDigit radix) else return ds

/-- A number may not run into a name. -/
def endNumber : Scan Unit := do
  match ← peek? with
  | some c => if isNameStart c then let p ← here; stop .nameAfterNumber (.point p)
  | none => pure ()

/-- A number behind the `0x` or the like of its radix. -/
def radixNumber (radix : Nat) : Scan Lexeme := do
  skipMany 2
  let _ ← someDigits radix
  if ← eat 'n' then return .bigInt
  endNumber
  return .number

/-- The fraction and the exponent of a decimal number. -/
def decimalTail : Scan Lexeme := do
  if ← eat '.' then
    let start ← here
    let _ ← digits 10 start ((← remaining) + 1) none []
  match ← peek? with
  | some c =>
    if c = 'e' ∨ c = 'E' then
      skip
      match ← peek? with
      | none => let p ← here; stop .missingExponent (.point p)
      | some sign =>
        if sign = '+' ∨ sign = '-' then skip
        let _ ← someDigits 10
  | none => pure ()
  endNumber
  return .number

/-- A number whose first digit comes next. A zero with anything of the number behind it makes it
octal, if all digits are, and is refused in strict code. -/
def number (strict : Bool) : Scan Lexeme := do
  let start ← here
  match (← get).rest with
  | '0' :: 'x' :: _ | '0' :: 'X' :: _ => radixNumber 16
  | '0' :: 'o' :: _ | '0' :: 'O' :: _ => radixNumber 8
  | '0' :: 'b' :: _ | '0' :: 'B' :: _ => radixNumber 2
  | first :: _ =>
    let ds ← someDigits 10
    let leadingZero := first = '0' && (← here) ≠ start + 1
    if !leadingZero then
      if ← eat 'n' then return .bigInt
      decimalTail
    else if ds.all (· < 8) then
      endNumber
      noteStrict strict start .legacyOctal
      return .number
    else
      noteStrict strict start .legacyDecimal
      decimalTail
  | [] => decimalTail

/-- Hexadecimal digits: `count` of them, or any number if `count` is zero. None if there are too
few. -/
def hexDigits (count : Nat) : Nat → List Nat → Scan (Option Nat)
  | 0, read => return finish read
  | fuel + 1, read => do
    match (← peek?).bind (digitValue? 16) with
    | some v =>
      skip
      if read.length + 1 = count then return finish (v :: read)
      else hexDigits count fuel (v :: read)
    | none => return finish read
where
  finish (read : List Nat) : Option Nat :=
    if read.isEmpty ∨ (0 < count ∧ read.length ≠ count) then none
    else some (read.reverse.foldl (fun n v => 16 * n + v) 0)

/-- A character number behind `\u`. Faults reach from an offset on if one is given, else from where
they are met. -/
def unicodeEscape (start : Option Nat) : Scan Nat := do
  let braced ← eat '\x7b'
  let digits ← here
  let number ← hexDigits (if braced then 0 else 4) ((← remaining) + 1) []
  let met := start.getD (← here)
  match number with
  | none =>
    stopFrom met (.badEscape (if braced then "1-6 hex characters" else "4 hex characters"))
  | some n =>
    if 0x10ffff < n then
      stopFrom met (.badEscape "1-6 hex characters in the range 0 to 10FFFF.")
    if ← pure braced <&&> (!·) <$> eat '\x7d' then stopFrom (start.getD digits) .unclosedEscape
    return n

/-- An octal escape of up to three digits, none above 255. -/
def octalEscape (first : Nat) : Scan Nat := do
  match (← peek?).bind (digitValue? 8) with
  | none => return first
  | some v =>
    skip
    let two := 8 * first + v
    match (← peek?).bind (digitValue? 8) with
    | none => return two
    | some w =>
      if 8 * two + w < 256 then
        skip
        return 8 * two + w
      else return two

/-- An escape whose backslash comes next. The answer is the character it stands for, if any. -/
def escaped (strict inTemplate : Bool) : Scan (Option Char) := do
  let start ← here
  skip
  match ← peek? with
  | none => stop .escapeAtEnd (.point start)
  | some 'n' => skip; return some '\n'
  | some 'r' => skip; return some '\r'
  | some 't' => skip; return some '\t'
  | some 'b' => skip; return some '\x08'
  | some 'v' => skip; return some '\x0b'
  | some 'f' => skip; return some '\x0c'
  | some '\r' =>
    skip
    let _ ← eat '\n'
    return none
  | some 'x' =>
    skip
    match ← hexDigits 2 2 [] with
    | some n => return some (Char.ofNat n)
    | none => stopFrom start (.badEscape "2 hex characters")
  | some 'u' =>
    skip
    return some (Char.ofNat (← unicodeEscape (some start)))
  | some c =>
    skip
    if isLineEnd c then return none
    match digitValue? 8 c with
    | none => return some c
    | some first =>
      let next := (← peek?).bind (digitValue? 8)
      if first = 0 ∧ next.isNone then return some '\x00'
      if inTemplate then stopFrom start .legacyOctal
      noteStrict strict start .legacyOctal
      return some (Char.ofNat (← octalEscape first))

/-- The value of a quoted text, its opening quote read. A line end or the end of the program
closes it with a fault. -/
def stringBody (strict : Bool) (quote : Char) (start : Nat) : Nat → List Char → Scan (List Char)
  | 0, read => return read.reverse
  | fuel + 1, read => do
    match ← peek? with
    | none => noteFrom start .unterminatedString; return read.reverse
    | some '\\' =>
      let c ← escaped strict false
      stringBody strict quote start fuel (c.toList ++ read)
    | some c =>
      if c = quote then
        skip
        return read.reverse
      else if c = '\n' ∨ c = '\r' then
        noteFrom start .unterminatedString
        return read.reverse
      else
        skip
        stringBody strict quote start fuel (c :: read)

/-- Template text behind its opening mark or behind the brace of an interpolation. -/
def templateBody (start : Nat) : Nat → Option SyntaxError → Scan (Option SyntaxError × Bool)
  | 0, _ => stopFrom start .unterminatedTemplate
  | fuel + 1, bad => do
    match (← get).rest with
    | [] => stopFrom start .unterminatedTemplate
    | '\x60' :: _ => skip; return (bad, true)
    | '$' :: '\x7b' :: _ => skipMany 2; return (bad, false)
    | '\\' :: _ =>
      let bad ← tryCatch (do let _ ← escaped false true; pure bad) fun e => pure (bad.or (some e))
      templateBody start fuel bad
    | _ :: _ => skip; templateBody start fuel bad

/-- Template text with the mark or brace that opens it coming next. -/
def template : Scan Lexeme := do
  let start ← here
  skip
  let text := (← get).rest
  let first ← here
  let (bad, isLast) ← templateBody start ((← remaining) + 1) none
  let size := (← here) - first - (if isLast then 1 else 2)
  return .templateText (String.ofList (takeBytes size text)) bad isLast

/-- The characters of a word; escapes in it stand for the characters they name. An escape may stand
for any character of a word, also where the word begins. -/
def wordBody : Nat → List Char → Bool → Scan (List Char × Bool)
  | 0, read, hasEscape => return (read.reverse, hasEscape)
  | fuel + 1, read, hasEscape => do
    match ← peek? with
    | some '\\' =>
      let start ← here
      skip
      if !(← eat 'u') then stop .strayBackslash (.point start)
      let c := Char.ofNat (← unicodeEscape none)
      if !isNamePart c then noteFrom start .badNameEscape
      wordBody fuel (c :: read) true
    | some c =>
      if isNamePart c then
        skip
        wordBody fuel (c :: read) hasEscape
      else return (read.reverse, hasEscape)
    | none => return (read.reverse, hasEscape)

/-- Words that are never names. -/
def keywords : List String :=
  ["null", "true", "false", "break", "case", "catch", "continue", "debugger", "default", "do",
   "export", "else", "finally", "for", "function", "if", "return", "switch", "throw", "try", "var",
   "const", "while", "with", "new", "this", "super", "class", "extends", "import", "in",
   "instanceof", "typeof", "void", "delete", "enum"]

def word : Scan Lexeme := do
  let start ← here
  let (cs, hasEscape) ← wordBody ((← remaining) + 1) [] false
  let text := String.ofList cs
  if hasEscape ∧ text ∈ keywords then stopFrom start (.escapedKeyword text)
  return .word text

/-- Fixed spellings; a longer one stands before each shorter one that begins it. -/
def spellings : List String :=
  [">>>=",
   "...", "===", "!==", ">>>", "**=", "<<=", ">>=", "&&=", "||=", "??=",
   "=>", "**", "++", "--", "<=", ">=", "==", "!=", "<<", ">>", "&&", "||", "??",
   "+=", "-=", "*=", "/=", "%=", "&=", "|=", "^=",
   "(", ")", "\x7b", "\x7d", "[", "]", ";", ",", ":", ".", "?", "+", "-", "*", "/", "%", "<", ">",
   "&", "|", "^", "~", "!", "=", "#", "@"]

/-- The fixed spelling that comes next. The mark of an optional access is two of them. -/
def punctuator : Scan Lexeme := do
  let rest := (← get).rest
  match spellings.find? (fun p => p.toList.isPrefixOf rest), rest with
  | some text, _ => skipMany text.length; return .punctuator text
  | none, c :: _ =>
    let p ← here
    skip
    stop (.unexpectedCharacter c) (.point p)
  | none, [] => return .eof

def lexeme (strict : Bool) : Scan Lexeme := do
  match (← get).rest with
  | [] => return .eof
  | '.' :: d :: _ => if d.isDigit then decimalTail else punctuator
  | '\x60' :: _ => template
  | c :: _ =>
    if c = '"' ∨ c = '\'' then
      let start ← here
      let text := (← get).rest
      skip
      let value ← stringBody strict c start ((← remaining) + 1) []
      return .string (String.ofList value) (String.ofList (takeBytes ((← here) - start) text))
    else if c.isDigit then number strict
    else if c = '\\' ∨ isNameStart c then word
    else punctuator

/-- A regular expression whose first slash comes next; slashes between brackets or behind a
backslash belong to it. Of the line ends only a line feed and a carriage return stop it. -/
def regexBody (start : Nat) : Nat → Bool → Bool → Scan Unit
  | 0, _, _ => stopFrom start .unterminatedRegex
  | fuel + 1, isEscaped, inClass => do
    match ← peek? with
    | none => stopFrom start .unterminatedRegex
    | some c =>
      if c = '\n' ∨ c = '\r' then stopFrom start .unterminatedRegex
      else if isEscaped then
        skip
        regexBody start fuel false inClass
      else if c = '/' ∧ !inClass then skip
      else
        skip
        regexBody start fuel (c = '\\') (c = '[' || (inClass && c ≠ ']'))

def regex : Scan Lexeme := do
  let start ← here
  skip
  regexBody start ((← remaining) + 1) false false
  match ← peek? with
  | some c =>
    if isNameStart c then
      let (flags, _) ← wordBody ((← remaining) + 1) [] false
      return .regex flags
    else return .regex []
  | none => return .regex []

end Scan

/-- What the text of a lexeme may turn out to begin. -/
inductive Rereading where
  | template | regex

namespace Rereading

/-- The lexemes that are read again. -/
def spellings : Rereading → List String
  | template => ["\x7d"]
  | regex => ["/", "/="]

def reader : Rereading → Scan Lexeme
  | template => Scan.template
  | regex => Scan.regex

end Rereading

namespace Scanner

/-- Runs a reader at the unread text; a fault that stops it becomes a lexeme of its own. -/
def scanned (s : Scanner) (start : Nat) (afterNewline : Bool) (reader : Scan Lexeme) :
    Scanned × Scanner :=
  let (result, s) := reader.run () s
  let lexeme := match result with
    | .ok lexeme => lexeme
    | .error e => .bad e
  (⟨lexeme, ⟨start, s.pos⟩, afterNewline⟩, s)

/-- The next lexeme behind blanks. Its span takes in a comment of the old form before it. -/
def next (s : Scanner) (strict : Bool) : Scanned × Scanner :=
  let begin : Scan.Blanks := { newline := s.pos == 0 }
  let (result, s) := (Scan.skipBlanks (s.rest.length + 1) begin).run () s
  let blanks := match result with
    | .ok blanks => blanks
    | .error _ => begin
  s.scanned (blanks.legacy.getD s.pos) blanks.newline (Scan.lexeme strict)

/-- The beginning of a program. A first line that starts with `#!` is a comment. -/
def ofText (text : String) : Scanner :=
  let s : Scanner := { rest := text.toList, pos := 0 }
  match s.rest with
  | '#' :: '!' :: _ => s.skipWhile (!Scan.isLineEnd ·)
  | _ => s

end Scanner

end Adequacy
