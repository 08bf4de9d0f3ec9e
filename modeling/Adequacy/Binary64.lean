namespace Adequacy

/-- The quotient of two numbers, rounded to the nearest one; a half goes to the even neighbour. -/
def roundQuotient (num den : Nat) : Nat :=
  let q := num / den
  let r := num % den
  if 2 * r < den then q else if den < 2 * r then q + 1 else q + q % 2

/-- A finite number with 53 bits of precision: `mantissa * 2 ^ exponent`. -/
structure Binary64 where
  mantissa : Nat
  exponent : Int
  deriving DecidableEq, Repr

namespace Binary64

/-- The numerator and the denominator of `num / den * 2 ^ e`. -/
def scale (num den : Nat) (e : Int) : Nat × Nat :=
  if 0 ≤ e then (num * Nat.pow 2 e.toNat, den) else (num, den * Nat.pow 2 (-e).toNat)

/-- The exponent that leaves a mantissa of 53 bits, or fewer near zero. -/
def exponentOf (num den : Nat) : Int :=
  let l : Int := (Nat.log2 num : Int) - Nat.log2 den
  let (n, d) := scale num den (-l)
  max (if d ≤ n then l - 52 else l - 53) (-1074)

/-- The number nearest to a quotient, or none if that is past the largest one. -/
def ofQuotient? (num den : Nat) : Option Binary64 :=
  if num = 0 then some ⟨0, 0⟩
  else
    let e := exponentOf num den
    let (n, d) := scale num den (-e)
    let m := roundQuotient n d
    let (m, e) := if m = Nat.pow 2 53 then (Nat.pow 2 52, e + 1) else (m, e)
    if 971 < e then none else some ⟨m, e⟩

/-- The exact value as a quotient. -/
def toQuotient (x : Binary64) : Nat × Nat := scale x.mantissa 1 x.exponent

def ofNat? (n : Nat) : Option Binary64 := ofQuotient? n 1

def mul? (x y : Binary64) : Option Binary64 :=
  let (a, b) := x.toQuotient
  let (c, d) := y.toQuotient
  ofQuotient? (a * c) (b * d)

def div? (x y : Binary64) : Option Binary64 :=
  let (a, b) := x.toQuotient
  let (c, d) := y.toQuotient
  if c = 0 then none else ofQuotient? (a * d) (b * c)

/-- A text filled up with zeros on the left. -/
def padZeros (width : Nat) (digits : String) : String :=
  String.ofList (List.replicate (width - digits.length) '0') ++ digits

/-- The exact value with a fixed number of decimal places; a half goes to the even neighbour. -/
def fixed (places : Nat) (x : Binary64) : String :=
  let (n, d) := x.toQuotient
  let unit := Nat.pow 10 places
  let scaled := roundQuotient (n * unit) d
  let whole := scaled / unit
  let part := scaled % unit
  s!"{whole}." ++ padZeros places (toString part)

/-- The least `k` from a start on for which `num * 10 ^ k` reaches `den`, within `fuel` steps. -/
def scaleUp (num den : Nat) : Nat → Nat → Nat
  | 0, k => k
  | fuel + 1, k => if den ≤ num * Nat.pow 10 k then k else scaleUp num den fuel (k + 1)

/-- The power of ten of the leading digit of a quotient. No number is below `10 ^ -330`. -/
def leadingPower (num den : Nat) : Int :=
  if den ≤ num then ((toString (num / den)).length : Int) - 1
  else -(scaleUp num den 330 1 : Int)

/-- `n / d * 10 ^ k` as a quotient. -/
def shift (n d : Nat) (k : Int) : Nat × Nat :=
  if 0 ≤ k then (n * Nat.pow 10 k.toNat, d) else (n, d * Nat.pow 10 (-k).toNat)

/-- Whether a decimal number reads back as `x`: it lies closer to `x` than to its neighbours, or
halfway if the mantissa is even. -/
def readsBack (x : Binary64) (digits : Nat) (power : Int) : Bool :=
  let m := x.mantissa
  -- In quarters of the last bit; below a power of two the neighbours are twice as close.
  let low := if m = Nat.pow 2 52 ∧ -1074 < x.exponent then 4 * m - 1 else 4 * m - 2
  let (ln, ld) := scale low 4 x.exponent
  let (hn, hd) := scale (4 * m + 2) 4 x.exponent
  let (vn, vd) := shift digits 1 power
  if m % 2 = 0 then ln * vd ≤ vn * ld && vn * hd ≤ hn * vd
  else ln * vd < vn * ld && vn * hd < hn * vd

/-- The first grid of `count` digits or more that has a decimal which reads back. -/
def searchDigits (x : Binary64) (leading : Int) : Nat → Nat → Nat × Int
  | 0, count =>
    let (n, d) := x.toQuotient
    let (sn, sd) := shift n d (count - 1 - leading)
    (roundQuotient sn sd, leading - count + 1)
  | fuel + 1, count =>
    let power := leading - count + 1
    let (n, d) := x.toQuotient
    let (sn, sd) := shift n d (-power)
    let near := roundQuotient sn sd
    let other := if near * sd ≤ sn then near + 1 else near - 1
    let tidy (digits : Nat) : Nat × Int :=
      -- Rounding up to a power of ten leaves a zero behind.
      if digits = Nat.pow 10 count then (1, power + count) else (digits, power)
    if readsBack x near power then tidy near
    else if readsBack x other power then tidy other
    else searchDigits x leading fuel (count + 1)

/-- The fewest significant digits that read back as the number, and the power of ten of the last
one. Of two such rows of digits it is the nearer. Seventeen digits always suffice. -/
def shortest (x : Binary64) : Nat × Int :=
  let (n, d) := x.toQuotient
  searchDigits x (leadingPower n d) 16 1

end Binary64

end Adequacy
