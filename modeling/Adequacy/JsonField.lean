import Adequacy.JsonReader

namespace Adequacy

namespace Json

/-- A value that has to be a text. -/
def asString : Json → Except JsonMismatch String
  | string s => .ok s
  | v => .error (.invalidType v.description "a string")

/-- A value that has to be a whole number below `2 ^ bits`. -/
def asNatural (bits : Nat) (expected : String) (v : Json) : Except JsonMismatch Nat :=
  match v with
  | number (.whole i) =>
    if 0 ≤ i ∧ i.toNat < Nat.pow 2 bits then .ok i.toNat else .error (.invalidValue v.description expected)
  | _ => .error (.invalidType v.description expected)

/-- A value that has to be a list of items of one form. -/
def asList {α : Type} (item : Json → Except JsonMismatch α) : Json → Except JsonMismatch (List α)
  | array items => items.mapM item
  | v => .error (.invalidType v.description "a sequence")

/-- A value that may be null. -/
def asOption {α : Type} (form : Json → Except JsonMismatch α) :
    Json → Except JsonMismatch (Option α)
  | null => .ok none
  | v => (form v).map some

/-- The member of that name if there is one, and `absent` otherwise. -/
def fieldD {α : Type} (v : Json) (name : String) (absent : α)
    (form : Json → Except JsonMismatch α) : Except JsonMismatch α :=
  match v.member? name with
  | some m => form m
  | none => .ok absent

end Json

end Adequacy
