import QubitRouting.Topology.Presets

/-!
# Checked topologies

`Topology.ofEdges` accepts a list of qubits and links only if they make a connected device: no qubit
is listed twice, every link joins two different qubits of the list, and all qubits hang together.
-/

set_option autoImplicit false

namespace QubitRouting.Topology

/-- What is wrong with a link; a loop is found before unknown qubits. -/
def linkFault (qubits : List PhysicalQubit) (l : Link) : Option Fault :=
  if l.1 = l.2 then some (.invalidTopology (.selfLoop l.1))
  else if l.1 ∉ qubits then some (.unknownPhysical l.1)
  else if l.2 ∉ qubits then some (.unknownPhysical l.2)
  else none

theorem joins_of_linkFault_eq_none {qubits : List PhysicalQubit} {l : Link}
    (h : linkFault qubits l = none) : l.Joins qubits := by
  unfold linkFault at h
  split at h
  · simp at h
  · split at h
    · simp at h
    · split at h
      · simp at h
      · simp_all [Link.Joins]

theorem joins_of_findSome?_eq_none {qubits : List PhysicalQubit} {links : List Link}
    (h : links.findSome? (linkFault qubits) = none) : ∀ l ∈ links, l.Joins qubits :=
  fun l hl => joins_of_linkFault_eq_none (List.findSome?_eq_none_iff.mp h l hl)

/-- The number of connected parts of the device with these qubits and links. -/
def partCount (qubits : List PhysicalQubit) (links : List Link)
    (joins : ∀ l ∈ links, l.Joins qubits) : Nat :=
  let table := Link.Table.ofLinks links
  let graph : FiniteGraph PhysicalQubit :=
    { neighbors := fun q => table.getD q []
      nodes := qubits
      neighbors_mem := fun a b hb => by
        rw [Link.Table.getD_ofLinks] at hb
        exact Link.mem_of_mem_neighbors joins hb }
  graph.partCount qubits

/-- The device with these qubits and links, if it is one. -/
def ofEdges (qubits : List PhysicalQubit) (links : List Link) : Except Fault Topology :=
  if nodup : qubits.Nodup then
    match h : links.findSome? (linkFault qubits) with
    | some fault => .error fault
    | none =>
      have joins := joins_of_findSome?_eq_none h
      let parts := partCount qubits links joins
      if 1 < parts then .error (.disconnected parts)
      else .ok (ofLinks qubits links nodup joins)
  else .error (.invalidTopology .duplicateQubit)

end QubitRouting.Topology
