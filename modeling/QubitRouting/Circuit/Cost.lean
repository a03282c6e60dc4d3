import QubitRouting.Metrics

/-!
# Costs
-/

set_option autoImplicit false

namespace QubitRouting

/-- What the gates of a mapped circuit cost. -/
structure CostModel where
  rz : Nat := 0
  x : Nat := 1
  sx : Nat := 1
  /-- Any other gate on one qubit. -/
  singleQubit : Nat := 1
  /-- Any gate on two qubits other than a swap. -/
  twoQubit : Nat := 10
  swap : Nat := 30
deriving DecidableEq, Repr

instance : Inhabited CostModel := ⟨{}⟩

namespace CostModel

/-- The cost of a gate on `arity` qubits. The names of the cheap gates count on one qubit only, and
`swap` on two only. -/
def gateCost (c : CostModel) (name : String) (arity : Nat) : Nat :=
  if arity = 2 then
    if name = "swap" then c.swap else c.twoQubit
  else if name = "rz" then c.rz
  else if name = "x" then c.x
  else if name = "sx" then c.sx
  else c.singleQubit

end CostModel

/-- The outcome of mapping a circuit, counted and costed. -/
structure Report where
  metrics : Metrics
  cost : UInt64
deriving DecidableEq, Repr

namespace Report

def zero : Report := ⟨.zero, 0⟩

instance : Add Report where
  add a b := ⟨a.metrics + b.metrics, a.cost + b.cost⟩

/-- The reports of several circuits together. -/
def sum (rs : List Report) : Report := rs.foldl (· + ·) zero

end Report

end QubitRouting
