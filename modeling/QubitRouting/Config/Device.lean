import QubitRouting.Topology.Validation
import Std.Data.TreeSet

/-!
# Device descriptions

A device is described by the kind of its topology and a size, or by a list of links.
-/

set_option autoImplicit false

namespace QubitRouting

/-- The description of a device. -/
inductive DeviceSpec where
  | heavyHex65
  | linear (qubits : Nat)
  | ring (qubits : Nat)
  | grid (rows cols : Nat)
  | star (qubits : Nat)
  | full (qubits : Nat)
  /-- Any links. Unless the qubits are listed, they are those that the links name. -/
  | custom (qubits : Option (List Nat)) (edges : List (Nat × Nat))
deriving DecidableEq, Repr

instance : Inhabited DeviceSpec := ⟨.heavyHex65⟩

namespace DeviceSpec

/-- The largest path, cycle, star or grid. -/
def maxQubits : Nat := 4096

/-- The largest device on which all qubits are linked. -/
def maxFullQubits : Nat := 256

/-- Sizes of grids have 32 bits. -/
def maxGridSize : Nat := Nat.pow 2 32

/-- A size that a device may have. -/
def checkSize (size limit : Nat) : Except Fault Unit :=
  if size = 0 then .error (.invalidTopology .noQubits)
  else if limit < size then .error (.invalidTopology (.tooManyQubits size limit))
  else .ok ()

/-- The numbers that links name, in ascending order. -/
def namedQubits (edges : List (Nat × Nat)) : List Nat :=
  (Std.TreeSet.ofList (edges.flatMap fun (a, b) => [a, b])).toList

/-- The device that is described. -/
def build : DeviceSpec → Except Fault Topology
  | heavyHex65 => .ok .heavyHex65
  | linear n => do
    checkSize n maxQubits
    return .linear n
  | ring n => do
    checkSize n maxQubits
    return .ring n
  | grid rows cols => do
    if maxGridSize ≤ rows * cols then throw (.invalidTopology (.gridTooLarge rows cols))
    checkSize (rows * cols) maxQubits
    return .grid rows cols
  | star n => do
    checkSize n maxQubits
    return .star n
  | full n => do
    checkSize n maxFullQubits
    return .full n
  | custom qubits edges =>
    let ids := qubits.getD (namedQubits edges)
    if ids.isEmpty then .error (.invalidTopology .customWithoutQubits)
    else Topology.ofEdges (ids.map .mk) (edges.map fun (a, b) => Topology.link a b)

end DeviceSpec

end QubitRouting
