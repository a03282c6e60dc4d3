/-!
# Digits in other radices
-/

set_option autoImplicit false

namespace QubitRouting.Radix

/-- The value of a digit below `radix`; letters follow the decimal digits. -/
def digit? (radix : Nat) (c : Char) : Option Nat :=
  let value :=
    if c.isDigit then c.toNat - '0'.toNat
    else if c.isLower then c.toNat - 'a'.toNat + 10
    else if c.isUpper then c.toNat - 'A'.toNat + 10
    else radix
  if value < radix then some value else none

/-- The number that one or more digits write. -/
def ofDigits? (radix : Nat) : List Char → Option Nat
  | [] => none
  | c :: cs => (c :: cs).foldlM (fun n c => (digit? radix c).map (radix * n + ·)) 0

end QubitRouting.Radix
