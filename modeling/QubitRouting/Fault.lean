import QubitRouting.Qubit

/-!
# Faults

The reasons for which a circuit cannot be mapped. Each belongs to one phase of the work, and its
message names the phase.
-/

set_option autoImplicit false

namespace QubitRouting

/-- The phases: collecting interactions, building the topology, placing, routing. -/
inductive Phase where
  | collection
  | topology
  | placement
  | routing
deriving DecidableEq, Repr

namespace Phase

def text : Phase → String
  | collection => "collection"
  | topology => "topology"
  | placement => "placement"
  | routing => "routing"

end Phase

/-- What can be wrong with the description of a topology, apart from gaps in it. -/
inductive TopologyDefect where
  | duplicateQubit
  | selfLoop (qubit : PhysicalQubit)
  | gridTooLarge (rows cols : Nat)
  | noQubits
  | tooManyQubits (size limit : Nat)
  | customWithoutQubits
deriving DecidableEq, Repr

namespace TopologyDefect

def message : TopologyDefect → String
  | duplicateQubit => "duplicate physical qubit id"
  | selfLoop q => s!"self loop on qubit {q.id}"
  | gridTooLarge rows cols => s!"grid {rows}x{cols} is too large"
  | noQubits => "topology needs at least one qubit"
  | tooManyQubits size limit => s!"{size} qubits exceeds the limit of {limit} for this topology"
  | customWithoutQubits => "custom topology names no qubits"

end TopologyDefect

inductive Fault where
  /-- A qubit that placement did not see takes part in a gate. -/
  | unplaced (qubit : LogicalQubit) (name : String)
  /-- All qubits that can be reached from here are taken. -/
  | noFreeQubit (source : PhysicalQubit)
  /-- All qubits are taken. -/
  | topologyFull (qubit : LogicalQubit) (available : Nat)
  | unreachable (source target : PhysicalQubit)
  | emptyTopology
  | noInteractions (qubits : Nat)
  | selfInteraction (phase : Phase) (name : String)
  | unknownQubit (phase : Phase) (name : String)
  | unknownPhysical (qubit : PhysicalQubit)
  | disconnected (components : Nat)
  | invalidTopology (defect : TopologyDefect)
  | notPlaced
  /-- An interaction comes too late to be taken into account. -/
  | frozen (a b : String)
deriving DecidableEq, Repr

namespace Fault

/-- The phase in which a fault arises. -/
def phase : Fault → Phase
  | unplaced .. | unreachable .. | notPlaced => .routing
  | noFreeQubit .. | topologyFull .. | noInteractions .. => .placement
  | emptyTopology | unknownPhysical .. | disconnected .. | invalidTopology .. => .topology
  | selfInteraction phase _ | unknownQubit phase _ => phase
  | frozen .. => .collection

/-- What happened, without the phase. -/
def description : Fault → String
  | unplaced qubit name => s!"logical qubit '{name}' ({qubit.label}) has no physical assignment"
  | noFreeQubit source => s!"no free physical qubit reachable from {source.label}"
  | topologyFull qubit available =>
    s!"cannot place {qubit.label}: all {available} physical qubits are occupied"
  | unreachable source target => s!"no path from {source.label} to {target.label}"
  | emptyTopology => "topology has no physical qubits"
  | noInteractions qubits => s!"interaction graph over {qubits} qubits has no interactions"
  | selfInteraction _ name => s!"qubit '{name}' cannot interact with itself"
  | unknownQubit _ name => s!"unknown logical qubit '{name}'"
  | unknownPhysical qubit => s!"physical qubit {qubit.label} is not part of the topology"
  | disconnected components => s!"topology is not connected ({components} components)"
  | invalidTopology defect => s!"invalid topology: {defect.message}"
  | notPlaced => "placement has not run yet"
  | frozen a b => s!"interaction '{a}' - '{b}' recorded after placement"

def message (f : Fault) : String := s!"[{f.phase.text}] {f.description}"

end Fault

end QubitRouting
