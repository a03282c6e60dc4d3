import QubitRouting.Placement.Initial

/-!
# What placement sees of a graph

Placement goes by the number of qubits, by whether a qubit meets others at all, and by its partners
with their weights. Graphs that agree in these are placed in the same way, whatever their qubits are
called and in whatever order the two qubits of an interaction are written.
-/

set_option autoImplicit false

namespace QubitRouting

namespace InteractionGraph

/-- To placement, the graphs are the same. -/
structure Alike (g g' : InteractionGraph) : Prop where
  qubits : g'.qubits.size = g.qubits.size
  interactions : g'.interactions.size = g.interactions.size
  connected : ∀ q, g'.isConnected q = g.isConnected q
  partners : ∀ q, g'.partners q = g.partners q

variable {g g' : InteractionGraph} {t : Topology}

namespace Alike

theorem qubitIds (h : g.Alike g') : g'.qubitIds = g.qubitIds := by
  rw [InteractionGraph.qubitIds, InteractionGraph.qubitIds, h.qubits]

theorem isConnected (h : g.Alike g') : g'.isConnected = g.isConnected :=
  funext h.connected

theorem totalWeight (h : g.Alike g') : g'.totalWeight = g.totalWeight := by
  funext q
  rw [InteractionGraph.totalWeight, InteractionGraph.totalWeight, h.partners]

theorem addFrom (h : g.Alike g') (m : Layout) (source : LogicalQubit) (pulls : List Pull) :
    Pull.addFrom g' m source pulls = Pull.addFrom g m source pulls := by
  rw [Pull.addFrom, Pull.addFrom, Pull.ofSource, Pull.ofSource, h.partners]

theorem followPulls (h : g.Alike g') (fuel : Nat) (pulls : List Pull) (m : Layout) :
    QubitRouting.followPulls g' t fuel pulls m = QubitRouting.followPulls g t fuel pulls m := by
  induction fuel generalizing pulls m with
  | zero => rfl
  | succ fuel ih =>
    cases pulls with
    | nil => rfl
    | cons pull pulls => simp only [QubitRouting.followPulls, ih, h.addFrom]

theorem grow (h : g.Alike g') (m : Layout) (seed : LogicalQubit) :
    QubitRouting.grow g' t m seed = QubitRouting.grow g t m seed := by
  rw [QubitRouting.grow, QubitRouting.grow, h.followPulls, h.addFrom, pullBound, pullBound,
    h.interactions]

theorem heaviestUnplaced (h : g.Alike g') (candidates : List LogicalQubit) (m : Layout) :
    QubitRouting.heaviestUnplaced g' candidates m =
      QubitRouting.heaviestUnplaced g candidates m := by
  rw [QubitRouting.heaviestUnplaced, QubitRouting.heaviestUnplaced, h.totalWeight]

theorem placeGroups (h : g.Alike g') (candidates : List LogicalQubit) (fuel : Nat) (m : Layout) :
    QubitRouting.placeGroups g' t candidates fuel m =
      QubitRouting.placeGroups g t candidates fuel m := by
  induction fuel generalizing m with
  | zero => rfl
  | succ fuel ih => simp only [QubitRouting.placeGroups, h.heaviestUnplaced, h.grow, ih]

/-- **Graphs that are alike have the same placement**, or fail for the same reason. -/
theorem initialPlacement (h : g.Alike g') (options : PlacementOptions) (t : Topology) :
    QubitRouting.initialPlacement options g' t = QubitRouting.initialPlacement options g t := by
  simp only [QubitRouting.initialPlacement, h.qubitIds, h.isConnected, h.heaviestUnplaced, h.grow,
    h.placeGroups, h.qubits]

end Alike

end InteractionGraph

end QubitRouting
