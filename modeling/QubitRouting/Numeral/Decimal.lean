/-!
# Decimal literals

A literal such as `12.5e-3` denotes an exact number, `125 · 10 ^ -4`. Reading it loses nothing;
what is lost is lost later, when the number is rounded (`Numeral/Binary64.lean`).
-/

set_option autoImplicit false

namespace QubitRouting

/-- The number `digits · 10 ^ scale`. -/
structure Decimal where
  digits : Nat
  scale : Int
deriving DecidableEq, Repr

namespace Decimal

/-- The value of a decimal digit. -/
def digitValue (c : Char) : Nat := c.toNat - '0'.toNat

/-- The number that a run of decimal digits writes; no digits write zero. -/
def natOfDigits (cs : List Char) : Nat := cs.foldl (fun n c => 10 * n + digitValue c) 0

/-- An optional sign followed by digits. -/
def signedOfDigits : List Char → Int
  | '-' :: cs => -(natOfDigits cs : Int)
  | '+' :: cs => natOfDigits cs
  | cs => natOfDigits cs

/-- Reads digits with an optional point and an optional exponent, such as `2`, `2.`, `.5` or
`1.5E+3`. The text is expected to have that form. -/
def ofText (cs : List Char) : Decimal :=
  let whole := cs.takeWhile Char.isDigit
  let (fraction, tail) :=
    match cs.dropWhile Char.isDigit with
    | '.' :: rest => (rest.takeWhile Char.isDigit, rest.dropWhile Char.isDigit)
    | rest => ([], rest)
  let exponent :=
    match tail with
    | 'e' :: rest => signedOfDigits rest
    | 'E' :: rest => signedOfDigits rest
    | _ => 0
  { digits := natOfDigits (whole ++ fraction), scale := exponent - fraction.length }

/-- How many digits the coefficient has; zero has none. -/
def width (d : Decimal) : Nat := if d.digits = 0 then 0 else (Nat.toDigits 10 d.digits).length

end Decimal

end QubitRouting
