/-!
# Qubits

A circuit is written over *logical* qubits, numbered in the order in which they first occur. A
device has *physical* qubits, whose numbers are the device's own and need not be consecutive.
-/

set_option autoImplicit false

namespace QubitRouting

/-- A qubit of the circuit. -/
structure LogicalQubit where
  id : Nat
deriving DecidableEq, Repr

/-- A qubit of the device. -/
structure PhysicalQubit where
  id : Nat
deriving DecidableEq, Repr

namespace LogicalQubit

/-- How messages show a logical qubit. -/
def label (q : LogicalQubit) : String := s!"l{q.id}"

instance : Ord LogicalQubit := ⟨compareOn id⟩

instance : Std.TransOrd LogicalQubit := inferInstanceAs (Std.TransCmp (compareOn id))

instance : Std.LawfulEqOrd LogicalQubit where
  eq_of_compare {a b} h := by
    cases a
    cases b
    exact congrArg LogicalQubit.mk (Std.LawfulEqOrd.eq_of_compare h)

end LogicalQubit

/-- The register that stands for the device in mapped circuits. -/
def deviceRegister : String := "Q"

namespace PhysicalQubit

/-- How circuits and messages show a physical qubit. -/
def label (q : PhysicalQubit) : String := s!"{deviceRegister}[{q.id}]"

instance : Ord PhysicalQubit := ⟨compareOn id⟩

instance : Std.TransOrd PhysicalQubit := inferInstanceAs (Std.TransCmp (compareOn id))

instance : Std.LawfulEqOrd PhysicalQubit where
  eq_of_compare {a b} h := by
    cases a
    cases b
    exact congrArg PhysicalQubit.mk (Std.LawfulEqOrd.eq_of_compare h)

end PhysicalQubit

end QubitRouting
