import QubitRouting.Interaction.Graph
import QubitRouting.Layout
import QubitRouting.Topology.Basic

/-!
# How good a layout is

The score of a layout is the weight of all interactions whose qubits sit next to each other.
-/

set_option autoImplicit false

namespace QubitRouting

/-- Whether the two qubits of an interaction are placed on linked qubits of the device. -/
def Interaction.isMet (e : Interaction) (t : Topology) (m : Layout) : Bool :=
  match m.physical e.first, m.physical e.second with
  | some p, some q => t.adjacent p q
  | _, _ => false

/-- The weight of all interactions whose qubits sit next to each other. -/
def InteractionGraph.score (g : InteractionGraph) (t : Topology) (m : Layout) : Weight :=
  Weight.sum ((g.interactions.toList.filter (·.isMet t m)).map (·.weight))

end QubitRouting
