import QubitRouting.Numeral.Binary64

/-!
# Writing a double-precision number

Two written forms. The *shortest* form has the fewest digits that still read back as the same
number, and of those the closest ones; it never uses an exponent. The *tenths* form has exactly one
digit after the point.
-/

set_option autoImplicit false

namespace QubitRouting

/-- A digit string `d₁ … dₙ` standing for `0.d₁ … dₙ · 10 ^ point`. -/
structure DigitString where
  digits : Nat
  point : Int
deriving DecidableEq, Repr

namespace DigitString

/-- Writes the digits positionally. -/
def render (s : DigitString) : String :=
  let ds := Nat.toDigits 10 s.digits
  let before := s.point.toNat
  if s.point ≤ 0 then
    "0." ++ String.ofList (List.replicate (-s.point).toNat '0' ++ ds)
  else if ds.length ≤ before then
    String.ofList (ds ++ List.replicate (before - ds.length) '0')
  else
    String.ofList (ds.take before) ++ "." ++ String.ofList (ds.drop before)

end DigitString

namespace Binary64

/-- The number `mantissa · 2 ^ exponent` as a ratio of whole numbers. -/
def ratio (mantissa : Nat) (exponent : Int) : Nat × Nat := scaleRatio mantissa 1 exponent

/-- The open interval of numbers that round to `mantissa · 2 ^ exponent`, as two ratios. The gap
below a power of two is half of the gap above it. -/
def roundingInterval (mantissa : Nat) (exponent : Int) : (Nat × Nat) × (Nat × Nat) :=
  let upper := ratio (2 * mantissa + 1) (exponent - 1)
  let lower :=
    if mantissa = Nat.pow 2 (precision - 1) ∧ minExponent < exponent then
      ratio (4 * mantissa - 1) (exponent - 2)
    else ratio (2 * mantissa - 1) (exponent - 1)
  (lower, upper)

/-- Whether `digits · 10 ^ scale` reads back as `mantissa · 2 ^ exponent`. The ends of the interval
belong to an even mantissa. -/
def readsBack (mantissa : Nat) (exponent : Int) (digits : Nat) (scale : Int) : Bool :=
  let ((ln, ld), (un, ud)) := roundingInterval mantissa exponent
  let (n, d) : Nat × Nat :=
    match scale with
    | .ofNat k => (digits * Nat.pow 10 k, 1)
    | .negSucc k => (digits, Nat.pow 10 (k + 1))
  if mantissa % 2 = 0 then ln * d ≤ n * ld && n * ud ≤ un * d
  else ln * d < n * ld && n * ud < un * d

/-- The `p` with `10 ^ (p - 1) ≤ num / den < 10 ^ p`, searched from a first guess by at most
`fuel` steps up or down. -/
def decimalPoint (num den : Nat) : Nat → Int → Int
  | 0, guess => guess
  | fuel + 1, guess =>
    let atLeast (k : Int) : Bool :=
      match k with
      | .ofNat k => den * Nat.pow 10 k ≤ num
      | .negSucc k => den ≤ num * Nat.pow 10 (k + 1)
    if atLeast guess then decimalPoint num den fuel (guess + 1)
    else if atLeast (guess - 1) then guess
    else decimalPoint num den fuel (guess - 1)

/-- The decimals with `count` digits on either side of the number, the closer one first; of two
equally close ones the larger is first. -/
def neighbours (num den : Nat) (scale : Int) : List Nat :=
  let (n, d) : Nat × Nat :=
    match scale with
    | .ofNat k => (num, den * Nat.pow 10 k)
    | .negSucc k => (num * Nat.pow 10 (k + 1), den)
  let below := n / d
  if 2 * (n % d) < d then [below, below + 1] else [below + 1, below]

/-- The digits with the fewest places that read back, trying `count` places and more. -/
def shortestFrom (mantissa : Nat) (exponent : Int) (num den : Nat) (point : Int) :
    Nat → Nat → DigitString
  | 0, count => ⟨num / den, count⟩
  | fuel + 1, count =>
    let scale := point - count
    match (neighbours num den scale).find? (readsBack mantissa exponent · scale) with
    | some digits =>
      -- rounding up can reach the next power of ten, which has one digit more
      if digits = Nat.pow 10 count then ⟨1, point + 1⟩ else ⟨digits, point⟩
    | none => shortestFrom mantissa exponent num den point fuel (count + 1)

/-- The shortest digits that read back; seventeen places always do. -/
def shortest (mantissa : Nat) (exponent : Int) : DigitString :=
  let (num, den) := ratio mantissa exponent
  let guess : Int := floorLog2 num den * 30103 / 100000 + 1
  let point := decimalPoint num den 8 guess
  shortestFrom mantissa exponent num den point 17 1

/-- The shortest form: `0.1`, `25`, `0.00001`, `inf`. -/
def renderShortest : Binary64 → String
  | .infinite => "inf"
  | .finite mantissa exponent =>
    if mantissa = 0 then "0" else (shortest mantissa exponent).render

/-- The tenths form: the exact value to one place, a half going to the even digit. -/
def renderTenths : Binary64 → String
  | .infinite => "inf"
  | .finite mantissa exponent =>
    let (num, den) := ratio mantissa exponent
    let tenths := roundDiv (10 * num) den
    s!"{tenths / 10}.{tenths % 10}"

end Binary64

end QubitRouting
