import QubitRouting.Layout

/-!
# Swaps along a path

The qubits at the two ends of a path meet on neighbouring places of it, when both are moved along by
swaps. Where they meet is given by the place `k` of the one that comes from the start of the path;
the other one arrives next to it.
-/

set_option autoImplicit false

namespace QubitRouting

/-- The swaps that carry what sits at the start of a path to its end. -/
def swapChain : List PhysicalQubit → List Swap
  | p :: q :: rest => (p, q) :: swapChain (q :: rest)
  | _ => []

/-- The swaps that carry the qubit at the start of a path to place `k`, and the one at its end to
place `k + 1`. -/
def splitSwaps (path : List PhysicalQubit) (k : Nat) : List Swap :=
  swapChain (path.take (k + 1)) ++ swapChain (path.drop (k + 1)).reverse

end QubitRouting
