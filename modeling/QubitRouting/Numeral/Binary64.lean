import QubitRouting.Numeral.Decimal

/-!
# Rounding to double precision

Numbers are stored with 53 significant bits. `Binary64.ofRatio` picks the closest such number to
an exact ratio and, of two equally close ones, the one whose last bit is zero. Only non-negative
numbers occur, because a minus sign is an operator of its own in a circuit.
-/

set_option autoImplicit false

namespace QubitRouting

/-- The ratio `num / den` rounded to a whole number, a half going to the even neighbour. -/
def roundDiv (num den : Nat) : Nat :=
  let quotient := num / den
  let twice := 2 * (num % den)
  if twice < den then quotient
  else if den < twice then quotient + 1
  else quotient + quotient % 2

/-- The number `num · 2 ^ shift / den` as a ratio of whole numbers. -/
def scaleRatio (num den : Nat) : Int → Nat × Nat
  | .ofNat k => (num * Nat.pow 2 k, den)
  | .negSucc k => (num, den * Nat.pow 2 (k + 1))

/-- The largest `k` with `2 ^ k ≤ num / den`, for positive `num` and `den`. -/
def floorLog2 (num den : Nat) : Int :=
  let guess : Int := (num.log2 : Int) - den.log2
  let (n, d) := scaleRatio num den (-guess)
  if d ≤ n then guess else guess - 1

/-- A non-negative double-precision number: `mantissa · 2 ^ exponent`, or too large to be finite. -/
inductive Binary64 where
  | finite (mantissa : Nat) (exponent : Int)
  | infinite
deriving DecidableEq, Repr

namespace Binary64

/-- The number of bits in a full mantissa. -/
def precision : Nat := 53

/-- No number has an exponent below this one. -/
def minExponent : Int := -1074

/-- The largest exponent of a full mantissa. -/
def maxExponent : Int := 971

/-- Zero. -/
def zero : Binary64 := .finite 0 minExponent

/-- The number closest to `num / den`, the even mantissa winning a tie. -/
def ofRatio (num den : Nat) : Binary64 :=
  if num = 0 then zero
  else
    let exponent := max (floorLog2 num den - (precision - 1)) minExponent
    let (n, d) := scaleRatio num den (-exponent)
    let mantissa := roundDiv n d
    let (mantissa, exponent) :=
      if mantissa = Nat.pow 2 precision then (Nat.pow 2 (precision - 1), exponent + 1)
      else (mantissa, exponent)
    if maxExponent < exponent then .infinite else .finite mantissa exponent

/-- The number closest to a decimal literal. A literal of `10 ^ 310` or more is past every finite
number, and one below `10 ^ -330` is closer to zero than to anything else; both are settled without
forming the power. -/
def ofDecimal (d : Decimal) : Binary64 :=
  let magnitude : Int := d.scale + d.width
  if d.digits = 0 then zero
  else if 310 < magnitude then .infinite
  else if magnitude < -330 then zero
  else
    match d.scale with
    | .ofNat k => ofRatio (d.digits * Nat.pow 10 k) 1
    | .negSucc k => ofRatio d.digits (Nat.pow 10 (k + 1))

/-- The product, rounded. -/
def mul : Binary64 → Binary64 → Binary64
  | .finite m e, .finite m' e' =>
    let (num, den) := scaleRatio (m * m') 1 (e + e')
    ofRatio num den
  | _, _ => .infinite

end Binary64

end QubitRouting
