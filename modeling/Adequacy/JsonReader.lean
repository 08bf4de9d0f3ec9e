import Adequacy.Json
import Adequacy.Quoted

namespace Adequacy

/-- Why a value is not of the form that is read. -/
inductive JsonMismatch where
  | invalidType (found expected : String)
  | invalidValue (found expected : String)
  | invalidLength (length : Nat) (expected : String)
  | missingField (name : String)
  | duplicateField (name : String)
  | unknownVariant (name : String)
  deriving DecidableEq, Repr

/-- What stops the reading of a JSON text. -/
inductive JsonFault where
  | eofInValue | eofInList | eofInObject | eofInString
  | expectedColon | expectedListEnd | expectedObjectEnd | expectedIdent | expectedValue
  | invalidEscape | invalidNumber | numberOutOfRange | controlCharacter | keyNotString
  | loneSurrogate | unfinishedSurrogate | trailingComma | trailingCharacters | recursionLimit
  | mismatch (reason : JsonMismatch)
  deriving DecidableEq, Repr

/-- A fault and the number of bytes that had been read, counting the one that was looked at. -/
structure JsonError where
  fault : JsonFault
  offset : Nat
  deriving DecidableEq, Repr

namespace JsonMismatch

def message : JsonMismatch → String
  | invalidType found expected => s!"invalid type: {found}, expected {expected}"
  | invalidValue found expected => s!"invalid value: {found}, expected {expected}"
  | invalidLength n expected => s!"invalid length {n}, expected {expected}"
  | missingField name => s!"missing field \x60{name}\x60"
  | duplicateField name => s!"duplicate field \x60{name}\x60"
  | unknownVariant name => s!"unknown variant \x60{name}\x60"

end JsonMismatch

namespace JsonFault

def message : JsonFault → String
  | eofInValue => "EOF while parsing a value"
  | eofInList => "EOF while parsing a list"
  | eofInObject => "EOF while parsing an object"
  | eofInString => "EOF while parsing a string"
  | expectedColon => "expected \x60:\x60"
  | expectedListEnd => "expected \x60,\x60 or \x60]\x60"
  | expectedObjectEnd => "expected \x60,\x60 or \x60\x7d\x60"
  | expectedIdent => "expected ident"
  | expectedValue => "expected value"
  | invalidEscape => "invalid escape"
  | invalidNumber => "invalid number"
  | numberOutOfRange => "number out of range"
  | controlCharacter => "control character (\\u0000-\\u001F) found while parsing a string"
  | keyNotString => "key must be a string"
  | loneSurrogate => "lone leading surrogate in hex escape"
  | unfinishedSurrogate => "unexpected end of hex escape"
  | trailingComma => "trailing comma"
  | trailingCharacters => "trailing characters"
  | recursionLimit => "recursion limit exceeded"
  | mismatch reason => reason.message

end JsonFault

namespace JsonError

/-- The line and the column that are reached after a number of bytes. -/
def place (offset line column : Nat) : List Char → Nat × Nat
  | [] => (line, column)
  | c :: cs =>
    if offset < c.utf8Size then (line, column + offset)
    else if c = '\n' then place (offset - 1) (line + 1) 0 cs
    else place (offset - c.utf8Size) line (column + c.utf8Size) cs

def message (e : JsonError) (text : String) : String :=
  let (line, column) := place e.offset 1 0 text.toList
  e.fault.message ++ s!" at line {line} column {column}"

end JsonError

namespace JsonNumber

/-- What a number is called in a message. -/
def description (n : JsonNumber) : String :=
  match n with
  | whole _ => s!"integer \x60{n.display}\x60"
  | real .. => s!"floating point \x60{n.display}\x60"

end JsonNumber

namespace Json

/-- What a value is called in a message. -/
def description : Json → String
  | null => "null"
  | bool b => s!"boolean \x60{b}\x60"
  | number n => n.description
  | string s => "string " ++ quotedText s
  | array _ => "sequence"
  | object _ => "map"

end Json

/-- What is left of a JSON text, and how many bytes have been read. -/
structure JsonCursor where
  rest : List Char
  offset : Nat

/-- Reads a JSON text from the front. -/
abbrev JsonReader (α : Type) := StateT JsonCursor (Except JsonError) α

namespace JsonReader

variable {α σ : Type}

/-- Stops at the last byte that was read. -/
def failHere (fault : JsonFault) : JsonReader α := do
  throw ⟨fault, (← get).offset⟩

/-- Stops at the byte that comes next, or at the end. -/
def failNext (fault : JsonFault) : JsonReader α := do
  let c ← get
  throw ⟨fault, if c.rest.isEmpty then c.offset else c.offset + 1⟩

def failMismatch (reason : JsonMismatch) : JsonReader α := failHere (.mismatch reason)

def peek? : JsonReader (Option Char) := do
  return (← get).rest.head?

def next? : JsonReader (Option Char) := do
  let c ← get
  match c.rest with
  | [] => return none
  | a :: rest => set (⟨rest, c.offset + a.utf8Size⟩ : JsonCursor); return some a

def skip : JsonReader Unit := do
  let _ ← next?

def isSpace (c : Char) : Bool := c == ' ' || c == '\n' || c == '\t' || c == '\r'

/-- Passes white space and looks at what follows it. -/
def peekBehindSpace? : JsonReader (Option Char) := do
  let c ← get
  let spaces := c.rest.takeWhile isSpace
  set (⟨c.rest.dropWhile isSpace, c.offset + spaces.length⟩ : JsonCursor)
  peek?

/-- The number of characters that are left, which bounds every loop. -/
def remaining : JsonReader Nat := do
  return (← get).rest.length

/-- The rest of a literal name whose first letter has been read. -/
def literal : List Char → JsonReader Unit
  | [] => pure ()
  | expected :: more => do
    match ← next? with
    | none => failHere .eofInValue
    | some c => if c = expected then literal more else failHere .expectedIdent

def hexValue? (c : Char) : Option Nat :=
  if c.isDigit then some (c.toNat - 48)
  else if 'a' ≤ c && c ≤ 'f' then some (c.toNat - 87)
  else if 'A' ≤ c && c ≤ 'F' then some (c.toNat - 55)
  else none

/-- Four hexadecimal digits. -/
def hexEscape : JsonReader Nat := do
  let c ← get
  let digits := c.rest.take 4
  if digits.length < 4 then
    set (⟨[], c.offset + (String.ofList c.rest).utf8ByteSize⟩ : JsonCursor)
    failHere .eofInString
  else
    set (⟨c.rest.drop 4, c.offset + (String.ofList digits).utf8ByteSize⟩ : JsonCursor)
    match digits.mapM hexValue? with
    | some values => return values.foldl (fun n v => 16 * n + v) 0
    | none => failHere .invalidEscape

/-- A character given by its number, behind `\u`. Two surrogates make one character. A text that
is only passed over may hold surrogates of any kind. -/
def unicodeEscape (strict : Bool) : JsonReader Char := do
  let first ← hexEscape
  if !strict then return Char.ofNat first
  if 0xdc00 ≤ first ∧ first ≤ 0xdfff then failHere .loneSurrogate
  else if first < 0xd800 ∨ 0xdfff < first then return Char.ofNat first
  else
    for expected in ['\\', 'u'] do
      match ← next? with
      | none => failHere .eofInString
      | some c => if c ≠ expected then failHere .unfinishedSurrogate
    let second ← hexEscape
    if second < 0xdc00 ∨ 0xdfff < second then failHere .loneSurrogate
    else return Char.ofNat (0x10000 + (first - 0xd800) * 0x400 + (second - 0xdc00))

/-- The character for an escape, behind its backslash. -/
def escaped (strict : Bool) : JsonReader Char := do
  match ← next? with
  | none => failHere .eofInString
  | some '"' => return '"'
  | some '\\' => return '\\'
  | some '/' => return '/'
  | some 'b' => return '\x08'
  | some 'f' => return '\x0c'
  | some 'n' => return '\n'
  | some 'r' => return '\r'
  | some 't' => return '\t'
  | some 'u' => unicodeEscape strict
  | some _ => failHere .invalidEscape

/-- The rest of a quoted text, its opening quote read; `fuel` bounds its length. -/
def stringBody (strict : Bool) : Nat → List Char → JsonReader String
  | 0, _ => failHere .eofInString
  | fuel + 1, read => do
    match ← next? with
    | none => failHere .eofInString
    | some '"' => return String.ofList read.reverse
    | some '\\' => do
      let c ← escaped strict
      stringBody strict fuel (c :: read)
    | some c =>
      if c.toNat < 32 then failHere .controlCharacter
      else stringBody strict fuel (c :: read)

def stringRest (strict : Bool) : JsonReader String := do
  stringBody strict ((← remaining) + 1) []

def digits : JsonReader (List Nat) := do
  let c ← get
  let ds := c.rest.takeWhile Char.isDigit
  set (⟨c.rest.dropWhile Char.isDigit, c.offset + ds.length⟩ : JsonCursor)
  return ds.map fun d => d.toNat - 48

/-- Takes digits into a number as long as it stays below `2 ^ 64`. The answer is the number and
the digits that no longer fit. -/
def accumulate : Nat → List Nat → Nat × List Nat
  | n, [] => (n, [])
  | n, d :: ds =>
    if 10 * n + d < 18446744073709551616 then accumulate (10 * n + d) ds else (n, d :: ds)

/-- `significand * 10 ^ exponent` in floating-point steps: one rounding for the significand, then
one for each power of ten. -/
def scalePower (exponent : Int) : Nat → Binary64 → Option Binary64
  | 0, x => some x
  | fuel + 1, x =>
    if exponent.natAbs ≤ 308 then do
      let power ← Binary64.ofNat? (Nat.pow 10 exponent.natAbs)
      if 0 ≤ exponent then x.mul? power else x.div? power
    else if x.mantissa = 0 then some x
    else if 0 ≤ exponent then none
    else do
      let power ← Binary64.ofNat? (Nat.pow 10 308)
      scalePower (exponent + 308) fuel (← x.div? power)

def real (strict negative : Bool) (significand : Nat) (exponent : Int) : JsonReader JsonNumber := do
  match (Binary64.ofNat? significand).bind (scalePower exponent 8) with
  | some x => return .real negative x
  | none => if strict then failHere .numberOutOfRange else return .real negative ⟨0, 0⟩

/-- An exponent behind its `e`. -/
def exponentPart (strict negative : Bool) (significand : Nat) (exponent : Int) :
    JsonReader JsonNumber := do
  let positive ← match ← peek? with
    | some '+' => skip; pure true
    | some '-' => skip; pure false
    | _ => pure true
  let ds ← digits
  if ds.isEmpty then
    match ← next? with
    | none => failHere .eofInValue
    | some _ => failHere .invalidNumber
  else
    let n : Nat := ds.foldl (fun n d => 10 * n + d) 0
    if Nat.pow 2 31 ≤ n then
      if significand ≠ 0 ∧ positive ∧ strict then failHere .numberOutOfRange
      else return .real negative ⟨0, 0⟩
    else real strict negative significand (if positive then exponent + (n : Int) else exponent - (n : Int))

/-- What follows the whole part of a number. -/
def fraction (strict negative : Bool) (significand : Nat) (exponent : Int) (isReal : Bool) :
    JsonReader JsonNumber := do
  match ← peek? with
  | some '.' =>
    skip
    let ds ← digits
    if ds.isEmpty then
      match ← peek? with
      | none => failNext .eofInValue
      | some _ => failNext .invalidNumber
    else
      -- Digits behind a whole part that was already cut short do not count.
      let (n, dropped) := if isReal then (significand, ds) else accumulate significand ds
      let exponent := exponent - ((ds.length - dropped.length : Nat) : Int)
      match ← peek? with
      | some 'e' | some 'E' => skip; exponentPart strict negative n exponent
      | _ => real strict negative n exponent
  | some 'e' | some 'E' => skip; exponentPart strict negative significand exponent
  | _ =>
    if isReal then real strict negative significand exponent
    else if negative then
      if significand = 0 ∨ Nat.pow 2 63 < significand then real strict true significand 0
      else return .whole (-significand)
    else return .whole significand

/-- A number whose sign has been read. -/
def number (strict negative : Bool) : JsonReader JsonNumber := do
  match ← peek? with
  | none => failHere .eofInValue
  | some '0' =>
    skip
    match ← peek? with
    | some d => if d.isDigit then failNext .invalidNumber else fraction strict negative 0 0 false
    | none => fraction strict negative 0 0 false
  | some d =>
    if d.isDigit then
      let ds ← digits
      let (n, dropped) := accumulate 0 ds
      fraction strict negative n dropped.length (!dropped.isEmpty)
    else
      skip
      failHere .invalidNumber

/-- The items of a list behind its bracket, up to the one that closes it. -/
def items (item : JsonReader α) : Nat → Bool → List α → JsonReader (List α)
  | 0, _, _ => failNext .eofInList
  | fuel + 1, first, read => do
    match ← peekBehindSpace? with
    | none => failNext .eofInList
    | some ']' => skip; return read.reverse
    | some ',' =>
      if first then
        let v ← item
        items item fuel false (v :: read)
      else
        skip
        match ← peekBehindSpace? with
        | some ']' => failNext .trailingComma
        | none => failNext .eofInValue
        | some _ =>
          let v ← item
          items item fuel false (v :: read)
    | some _ =>
      if first then
        let v ← item
        items item fuel false (v :: read)
      else failNext .expectedListEnd

/-- The name of the next member of an object, with its colon; none at the closing brace. -/
def key? (first : Bool) : JsonReader (Option String) := do
  let start ← match ← peekBehindSpace? with
    | none => failNext .eofInObject
    | some ',' => if first then pure (some ',') else do skip; peekBehindSpace?
    | some '\x7d' => do skip; return none
    | some c => if first then pure (some c) else failNext .expectedObjectEnd
  match start with
  | some '"' =>
    skip
    let name ← stringRest true
    match ← peekBehindSpace? with
    | some ':' => skip; return some name
    | some _ => failNext .expectedColon
    | none => failNext .eofInObject
  | some '\x7d' => failNext .trailingComma
  | some _ => failNext .keyNotString
  | none => failNext .eofInValue

/-- The members of an object behind its brace, up to the one that closes it. -/
def members (item : JsonReader α) : Nat → Bool → List (String × α) → JsonReader (List (String × α))
  | 0, _, _ => failNext .eofInObject
  | fuel + 1, first, read => do
    match ← key? first with
    | none => return read.reverse
    | some name =>
      let v ← item
      members item fuel false ((name, v) :: read)

/-- A value with at most `depth` levels of lists and objects. The members of an object come out
by name; of those with the same name the last one stays. -/
def value (strict : Bool) (depth : Nat) : JsonReader Json := do
  match ← peekBehindSpace? with
  | none => failNext .eofInValue
  | some 'n' => skip; literal "ull".toList; return .null
  | some 't' => skip; literal "rue".toList; return .bool true
  | some 'f' => skip; literal "alse".toList; return .bool false
  | some '"' => skip; return .string (← stringRest strict)
  | some '-' => skip; return .number (← number strict true)
  | some '[' =>
    match depth with
    | 0 => failHere .recursionLimit
    | d + 1 =>
      skip
      return .array (← items (value strict d) ((← remaining) + 1) true [])
  | some '\x7b' =>
    match depth with
    | 0 => failHere .recursionLimit
    | d + 1 =>
      skip
      return .object (Json.sortMembers (← members (value strict d) ((← remaining) + 1) true []))
  | some c =>
    if c.isDigit then return .number (← number strict false)
    else failNext .expectedValue
termination_by depth

/-- The deepest nesting of lists and objects that is read. -/
def maxDepth : Nat := 127

/-- A value that is only passed over: nesting, numbers and surrogates have no bounds in it. -/
def ignored : JsonReader Unit := do
  let _ ← value false (← remaining)

/-- Reads a whole text, with nothing but white space behind the value. -/
def readAll (reader : JsonReader α) (text : String) : Except JsonError α := do
  let whole : JsonReader α := do
    let v ← reader
    match ← peekBehindSpace? with
    | none => return v
    | some _ => failNext .trailingCharacters
  let (v, _) ← StateT.run whole ⟨text.toList, 0⟩
  return v

/-- The value at the cursor is not of the expected form. Scalars are read before that is said. -/
def mismatched (expected : String) : JsonReader α := do
  match ← peek? with
  | some 'n' => skip; literal "ull".toList; failMismatch (.invalidType Json.null.description expected)
  | some 't' =>
    skip; literal "rue".toList; failMismatch (.invalidType (Json.bool true).description expected)
  | some 'f' =>
    skip; literal "alse".toList; failMismatch (.invalidType (Json.bool false).description expected)
  | some '"' =>
    skip
    let s ← stringRest true
    failMismatch (.invalidType (Json.string s).description expected)
  | some '-' => skip; let n ← number true true; failMismatch (.invalidType n.description expected)
  | some '[' => failMismatch (.invalidType "sequence" expected)
  | some '\x7b' => failMismatch (.invalidType "map" expected)
  | some c =>
    if c.isDigit then
      let n ← number true false
      failMismatch (.invalidType n.description expected)
    else failNext .expectedValue
  | none => failNext .expectedValue

/-- Looks at the first character of a value that has to be there. -/
def start : JsonReader Char := do
  match ← peekBehindSpace? with
  | some c => return c
  | none => failNext .eofInValue

def bool : JsonReader Bool := do
  match ← start with
  | 't' => skip; literal "rue".toList; return true
  | 'f' => skip; literal "alse".toList; return false
  | _ => mismatched "a boolean"

def string : JsonReader String := do
  match ← start with
  | '"' => skip; stringRest true
  | _ => mismatched "a string"

/-- A value that may be null. -/
def optional (reader : JsonReader α) : JsonReader (Option α) := do
  match ← start with
  | 'n' => skip; literal "ull".toList; return none
  | _ => return some (← reader)

/-- A whole number below `2 ^ bits`. -/
def natural (bits : Nat) (expected : String) : JsonReader Nat := do
  let c ← start
  if c = '-' then skip
  if c = '-' ∨ c.isDigit then
    let n ← number true (c = '-')
    match n with
    | .whole (.ofNat i) =>
      if i < Nat.pow 2 bits then return i
      else failMismatch (.invalidValue s!"integer \x60{i}\x60" expected)
    | .whole i => failMismatch (.invalidValue s!"integer \x60{i}\x60" expected)
    | .real .. => failMismatch (.invalidType s!"floating point \x60{n.display}\x60" expected)
  else mismatched expected

def list (item : JsonReader α) : JsonReader (List α) := do
  match ← start with
  | '[' => skip; items item ((← remaining) + 1) true []
  | _ => mismatched "a sequence"

/-- Members of an object by the place of their name in `names`. `field` takes the value of one into
the record; one that is named twice is refused, and one that is not listed is passed over. -/
def recordMembers (names : List String) (field : Nat → σ → JsonReader σ) :
    Nat → Bool → List Nat → σ → JsonReader (σ × List Nat)
  | 0, _, _, _ => failNext .eofInObject
  | fuel + 1, first, seen, r => do
    match ← key? first with
    | none => return (r, seen)
    | some name =>
      match names.findIdx? (· = name) with
      | none => ignored; recordMembers names field fuel false seen r
      | some i =>
        if i ∈ seen then failMismatch (.duplicateField name)
        else
          let r ← field i r
          recordMembers names field fuel false (i :: seen) r

/-- The items of a list as the fields of a record in their order, and how many there are. -/
def recordItems (field : Nat → σ → JsonReader σ) :
    List String → Nat → σ → JsonReader (σ × Nat)
  | [], i, r => do
    match ← peekBehindSpace? with
    | some ']' => skip; return (r, i)
    | some ',' =>
      skip
      match ← peekBehindSpace? with
      | some ']' => failNext .trailingComma
      | _ => failNext .trailingCharacters
    | some _ => failNext .trailingCharacters
    | none => failNext .eofInList
  | _ :: later, i, r => do
    match ← peekBehindSpace? with
    | none => failNext .eofInList
    | some ']' => skip; return (r, i)
    | some c =>
      if 0 < i then
        if c ≠ ',' then failNext .expectedListEnd
        skip
        match ← peekBehindSpace? with
        | some ']' => failNext .trailingComma
        | none => failNext .eofInValue
        | some _ => pure ()
      let r ← field i r
      recordItems field later (i + 1) r

/-- A record with the given field names: an object, or a list of the fields in their order. Unless
fields may be absent, the first missing one of an object is named, and of a list its length. -/
def record (expected : String) (names : List String) (mayBeAbsent : Bool)
    (field : Nat → σ → JsonReader σ) (empty : σ) : JsonReader σ := do
  match ← start with
  | '\x7b' =>
    skip
    let (r, seen) ← recordMembers names field ((← remaining) + 1) true [] empty
    match (List.range names.length).find? (· ∉ seen) with
    | some i => if mayBeAbsent then return r else failMismatch (.missingField (names.getD i ""))
    | none => return r
  | '[' =>
    skip
    let (r, length) ← recordItems field names 0 empty
    if mayBeAbsent || length == names.length then return r
    else
      let elements := if names.length = 1 then "element" else "elements"
      failMismatch (.invalidLength length s!"{expected} with {names.length} {elements}")
  | _ => mismatched expected

end JsonReader

/-- Reads a JSON text as a value. -/
def Json.parse (text : String) : Except JsonError Json :=
  JsonReader.readAll (JsonReader.value true JsonReader.maxDepth) text

end Adequacy
