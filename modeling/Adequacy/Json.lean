import Adequacy.Binary64

namespace Adequacy

/-- A number as it stands in a JSON text: whole, or with a fraction or an exponent. -/
inductive JsonNumber where
  | whole (value : Int)
  | real (negative : Bool) (magnitude : Binary64)
  deriving DecidableEq, Repr

/-- A JSON value. The members of an object keep their order. -/
inductive Json where
  | null
  | bool (value : Bool)
  | number (value : JsonNumber)
  | string (value : String)
  | array (items : List Json)
  | object (members : List (String × Json))
  deriving Repr, Inhabited

namespace JsonNumber

/-- A decimal `digits * 10 ^ power`: positional while the point stands at most four zeros before
the digits or sixteen places behind the first, with an exponent otherwise. -/
def decimal (digits : Nat) (power : Int) : String :=
  let ds := toString digits
  let point : Int := ds.length + power
  if digits = 0 then "0.0"
  else if 0 ≤ power ∧ point ≤ 16 then ds ++ String.ofList (List.replicate power.toNat '0') ++ ".0"
  else if 0 < point ∧ point ≤ 16 then
    String.ofList (ds.toList.take point.toNat) ++ "." ++ String.ofList (ds.toList.drop point.toNat)
  else if -5 < point ∧ point ≤ 0 then
    "0." ++ String.ofList (List.replicate (-point).toNat '0') ++ ds
  else
    let tail := String.ofList (ds.toList.drop 1)
    let exponent := point - 1
    String.ofList (ds.toList.take 1) ++ (if tail = "" then "" else "." ++ tail) ++ "e" ++
      (if 0 ≤ exponent then "+" else "") ++ toString exponent

def display : JsonNumber → String
  | whole i => toString i
  | real negative x =>
    let (digits, power) := if x.mantissa = 0 then (0, 0) else x.shortest
    (if negative then "-" else "") ++ decimal digits power

end JsonNumber

namespace Json

def hexDigit (n : Nat) : Char := if n < 10 then Char.ofNat (48 + n) else Char.ofNat (87 + n)

/-- A character inside a quoted text. Only the quote, the backslash and the control characters
are written as escapes. -/
def escape (c : Char) : List Char :=
  if c = '"' then ['\\', '"']
  else if c = '\\' then ['\\', '\\']
  else if c = '\x08' then ['\\', 'b']
  else if c = '\x0c' then ['\\', 'f']
  else if c = '\n' then ['\\', 'n']
  else if c = '\r' then ['\\', 'r']
  else if c = '\t' then ['\\', 't']
  else if c.toNat < 32 then
    ['\\', 'u', '0', '0', hexDigit (c.toNat / 16), hexDigit (c.toNat % 16)]
  else [c]

def quote (s : String) : String :=
  "\"" ++ String.ofList (s.toList.flatMap escape) ++ "\""

/-- Text without spaces. -/
def compact : Json → String
  | null => "null"
  | bool b => if b then "true" else "false"
  | number n => n.display
  | string s => quote s
  | array items => "[" ++ ",".intercalate (items.attach.map fun ⟨v, _⟩ => v.compact) ++ "]"
  | object members =>
    "\x7b" ++ ",".intercalate (members.attach.map fun ⟨(k, v), _⟩ => quote k ++ ":" ++ v.compact) ++
      "\x7d"
termination_by v => sizeOf v
decreasing_by
  · rename_i h; have := List.sizeOf_lt_of_mem h; simp_wf; omega
  · rename_i h; have := List.sizeOf_lt_of_mem h; simp_wf; simp at this; omega

def newline (depth : Nat) : String := "\n" ++ String.ofList (List.replicate (2 * depth) ' ')

/-- Text with one item a line, indented by two spaces a level. -/
def pretty (depth : Nat) : Json → String
  | array (v :: rest) =>
    let inner := newline (depth + 1)
    "[" ++ inner ++
      ("," ++ inner).intercalate ((v :: rest).attach.map fun ⟨v, _⟩ => v.pretty (depth + 1)) ++
      newline depth ++ "]"
  | object (m :: rest) =>
    let inner := newline (depth + 1)
    "\x7b" ++ inner ++
      ("," ++ inner).intercalate ((m :: rest).attach.map fun ⟨(k, v), _⟩ =>
        quote k ++ ": " ++ v.pretty (depth + 1)) ++
      newline depth ++ "\x7d"
  | v => v.compact
termination_by v => sizeOf v
decreasing_by
  · rename_i h; have := List.sizeOf_lt_of_mem h; simp_wf; simp at this; omega
  · rename_i h; have := List.sizeOf_lt_of_mem h; simp_wf; simp at this; omega

/-- The value of the last member of that name. -/
def member? (name : String) : Json → Option Json
  | object members => (members.reverse.find? (·.1 = name)).map (·.2)
  | _ => none

/-- Adds a member behind those with smaller names; a member of the same name is replaced. -/
def insertMember (name : String) (value : Json) : List (String × Json) → List (String × Json)
  | [] => [(name, value)]
  | (k, v) :: rest =>
    if k < name then (k, v) :: insertMember name value rest
    else if k = name then (name, value) :: rest
    else (name, value) :: (k, v) :: rest

/-- Members by name; of those with the same name the last one stays. -/
def sortMembers (members : List (String × Json)) : List (String × Json) :=
  members.foldl (fun acc m => insertMember m.1 m.2 acc) []

/-- The value with the members of all its objects by name. -/
def sorted : Json → Json
  | array items => array (items.attach.map fun ⟨v, _⟩ => v.sorted)
  | object members => object (sortMembers (members.attach.map fun ⟨(k, v), _⟩ => (k, v.sorted)))
  | v => v
termination_by v => sizeOf v
decreasing_by
  · rename_i h; have := List.sizeOf_lt_of_mem h; simp_wf; omega
  · rename_i h; have := List.sizeOf_lt_of_mem h; simp_wf; simp at this; omega

def nat (n : Nat) : Json := .number (.whole n)

def strings (texts : List String) : Json := .array (texts.map .string)

end Json

end Adequacy
