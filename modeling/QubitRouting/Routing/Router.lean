import QubitRouting.Routing.Strategy

/-!
# Routing

Before a gate acts on two qubits they are brought next to each other by swaps along a shortest path.
-/

set_option autoImplicit false

namespace QubitRouting

/-- How qubits are brought together. -/
structure Router where
  mover : MoverStrategy := .distanceToCenter
  meeting : MeetingStrategy := .truncate
deriving DecidableEq, Repr

namespace Router

/-- The swaps that bring two qubits next to each other. -/
def swapsFor (r : Router) (g : InteractionGraph) (t : Topology) (m : Layout)
    (a b : LogicalQubit) : Except Fault (List Swap) := do
  if a = b then throw (.selfInteraction .routing (g.nameOf a))
  let pa ← g.placeOf m a
  let pb ← g.placeOf m b
  if t.adjacent pa pb then return []
  let (mover, anchor) ← r.mover.select g t m a b
  let source ← g.placeOf m mover
  let target ← g.placeOf m anchor
  match t.shortestPath source target with
  | none => throw (.unreachable source target)
  | some path => return splitSwaps path (r.meeting.meetingPlace g t m path)

/-- Brings two qubits next to each other: the swaps, and the layout after them. -/
def route (r : Router) (g : InteractionGraph) (t : Topology) (m : Layout) (a b : LogicalQubit) :
    Except Fault (List Swap × Layout) := do
  let swaps ← r.swapsFor g t m a b
  return (swaps, m.swaps swaps)

end Router

end QubitRouting
