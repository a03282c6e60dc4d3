import QubitRouting.Layout
import QubitRouting.Topology.Basic

/-!
# Free places

Two ways of choosing a free physical qubit: as near as possible to a given one, or next to the
qubits that are taken already.
-/

set_option autoImplicit false

namespace QubitRouting.Topology

/-- The free qubit nearest to `source`. -/
def nearestFree (t : Topology) (m : Layout) (source : PhysicalQubit) :
    Except Fault PhysicalQubit :=
  match t.graph.nearest source (fun q => !m.isOccupied q) with
  | some q => .ok q
  | none => .error (.noFreeQubit source)

/-- The first free qubit with a taken neighbour, or else the first free qubit. -/
def freeSlot? (t : Topology) (m : Layout) : Option PhysicalQubit :=
  (t.qubits.find? fun q => !m.isOccupied q && (t.neighbors q).any m.isOccupied).or
    (t.qubits.find? fun q => !m.isOccupied q)

/-- Places a logical qubit on a free slot. -/
def placeAnywhere (t : Topology) (m : Layout) (l : LogicalQubit) :
    Except Fault (PhysicalQubit × Layout) :=
  match t.freeSlot? m with
  | some q => .ok (q, m.assign l q)
  | none => .error (.topologyFull l t.size)

end QubitRouting.Topology
