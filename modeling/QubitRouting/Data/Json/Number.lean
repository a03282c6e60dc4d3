import QubitRouting.Data.Document
import QubitRouting.Numeral.Binary64

/-!
# JSON numbers

A number that is an integer of 64 bits is exact. Any other is a real, made of its leading digits, as
many as fit in 64 bits, and a power of ten; both are rounded, and so is their product, which must be
finite.
-/

set_option autoImplicit false

namespace QubitRouting.Json

/-! ## Form -/

/-- Whether digits are a whole number without a superfluous zero in front. -/
def isWhole : List Char → Bool
  | [] => false
  | ['0'] => true
  | c :: cs => c != '0' && (c :: cs).all Char.isDigit

/-- The parts of a number without its sign. -/
structure Numeral where
  whole : List Char
  /-- The digits behind the point, if there is one. -/
  fraction : Option (List Char)
  /-- The digits of the exponent with their sign, if there is one. -/
  exponent : Option (List Char)
deriving DecidableEq, Repr

namespace Numeral

/-- The digits of an exponent, without their sign. -/
def unsigned : List Char → List Char
  | '+' :: ds => ds
  | '-' :: ds => ds
  | ds => ds

/-- The number with this text. -/
def ofText? (cs : List Char) : Option Numeral := do
  let whole := cs.takeWhile Char.isDigit
  let (fraction, rest) :=
    match cs.dropWhile Char.isDigit with
    | '.' :: rest => (some (rest.takeWhile Char.isDigit), rest.dropWhile Char.isDigit)
    | rest => (none, rest)
  let exponent ←
    match rest with
    | [] => some none
    | c :: ds => if c = 'e' || c = 'E' then some (some ds) else none
  let isDigits (ds : List Char) := !ds.isEmpty && ds.all Char.isDigit
  if isWhole whole && fraction.all isDigits && exponent.all (isDigits ∘ unsigned) then
    some { whole, fraction, exponent }
  else none

/-! ## Size -/

/-- Whether a number fits in 64 bits. -/
def fits (n : Nat) : Bool := n < Nat.pow 2 64

/-- Appends the digits before the point to a number as long as it fits. The others only count. -/
def leadingWhole (n dropped : Nat) : List Char → Nat × Nat
  | [] => (n, dropped)
  | c :: cs =>
    let more := 10 * n + Decimal.digitValue c
    if dropped = 0 && fits more then leadingWhole more 0 cs else leadingWhole n (dropped + 1) cs

/-- Appends the digits behind the point to a number as long as it fits, and counts them. The others
are ignored. -/
def leadingFraction (n taken : Nat) : List Char → Nat × Nat
  | [] => (n, taken)
  | c :: cs =>
    let more := 10 * n + Decimal.digitValue c
    if fits more then leadingFraction more (taken + 1) cs else (n, taken)

/-- The leading digits as a whole number, and the power of ten that it is multiplied by. -/
def leading (x : Numeral) : Decimal :=
  let (n, dropped) := leadingWhole 0 0 x.whole
  let (n, taken) := leadingFraction n 0 (x.fraction.getD [])
  let exponent := x.exponent.elim 0 Decimal.signedOfDigits
  { digits := n, scale := exponent + dropped - taken }

/-- The largest power of ten that is finite. -/
def maxScale : Nat := 308

/-- Whether a number is finite in double precision. -/
def isFinite (x : Numeral) : Bool :=
  let d := x.leading
  match d.scale with
  | .negSucc _ => true
  | .ofNat k =>
    d.digits = 0 || (k ≤ maxScale &&
      (Binary64.ofRatio d.digits 1).mul (Binary64.ofRatio (Nat.pow 10 k) 1) != .infinite)

/-- Whether a number is written as an integer. -/
def isInteger (x : Numeral) : Bool := x.fraction.isNone && x.exponent.isNone

end Numeral

/-- The number with this text, without its sign. Integers that do not fit in 64 bits, and minus
zero, count as reals. -/
def number? (negative : Bool) (cs : List Char) : Option Document := do
  let x ← Numeral.ofText? cs
  let n := Decimal.natOfDigits x.whole
  if x.isInteger && !negative && n < Nat.pow 2 64 then some (.integer n)
  else if x.isInteger && negative && 0 < n && n ≤ Nat.pow 2 63 then some (.integer (-n))
  else if x.isFinite then some (.real (String.ofList (if negative then '-' :: cs else cs)))
  else none

end QubitRouting.Json
