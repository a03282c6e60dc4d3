/-!
# Metrics

What mapping a circuit costs, counted.
-/

set_option autoImplicit false

namespace QubitRouting

/-- The size of a circuit, and the swaps that were inserted into it. -/
structure Metrics where
  logicalQubits : Nat
  twoQubitOps : Nat
  swaps : Nat
deriving DecidableEq, Repr

namespace Metrics

def zero : Metrics := ⟨0, 0, 0⟩

instance : Inhabited Metrics := ⟨zero⟩

/-- Counters are added with 64 bits. -/
instance : Add Metrics where
  add a b :=
    ⟨(a.logicalQubits + b.logicalQubits) % UInt64.size,
      (a.twoQubitOps + b.twoQubitOps) % UInt64.size, (a.swaps + b.swaps) % UInt64.size⟩

/-- The metrics of several circuits together. -/
def sum (ms : List Metrics) : Metrics := ms.foldl (· + ·) zero

/-- The number of swaps for each two-qubit gate, or zero without such gates. -/
def swapsPerOp (m : Metrics) : Float :=
  if m.twoQubitOps = 0 then 0
  else m.swaps.toUInt64.toFloat / m.twoQubitOps.toUInt64.toFloat

end Metrics

end QubitRouting
