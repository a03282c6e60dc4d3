/-!
# Interaction weights

Weights are double-precision numbers. Sums run from left to right, since the order of the additions
shows in the last digits.
-/

set_option autoImplicit false

namespace QubitRouting

/-- How strongly two qubits want to be close. -/
abbrev Weight := Float

namespace Weight

/-- The sum of weights, from left to right. -/
def sum (ws : List Weight) : Weight := ws.foldl (· + ·) 0

/-- The position of a weight in the total order of double-precision numbers. It agrees with `<` on
numbers other than zero, and puts minus zero below zero. -/
def rank (w : Weight) : Int :=
  let bits := w.toBits.toNat
  if bits < Nat.pow 2 63 then bits else -(bits - Nat.pow 2 63 : Int) - 1

end Weight

end QubitRouting
