import QubitRouting.Placement.Growth

/-!
# Initial placement

Placement begins with the qubit of the heaviest interactions, at a good starting position, and grows
from it. Qubits that it does not reach follow: first one from each further group of interacting
qubits, again the heaviest, with all that grows from it, and at last the qubits that never meet
another one.
-/

set_option autoImplicit false

namespace QubitRouting

/-- Settings of the initial placement. -/
structure PlacementOptions where
  /-- Whether circuits without two-qubit gates are placed at all. -/
  allowIsolated : Bool := true
deriving DecidableEq, Repr

instance : Inhabited PlacementOptions := ⟨{}⟩

/-- The unplaced qubit with the largest total weight, the first of them. -/
def heaviestUnplaced (g : InteractionGraph) (candidates : List LogicalQubit) (m : Layout) :
    Option LogicalQubit :=
  (firstBest (fun (w v : Weight) => v < w) g.totalWeight
    (candidates.filter fun q => !m.isPlaced q)).map (·.1)

/-- Places qubits one after the other, leaving out those that are placed. -/
def placeRemaining (t : Topology) : List LogicalQubit → Layout → Except Fault Layout
  | [], m => .ok m
  | q :: qs, m => do
    if m.isPlaced q then placeRemaining t qs m
    else
      let (_, m) ← t.placeAnywhere m q
      placeRemaining t qs m

/-- Places one qubit after another from the groups of interacting qubits that are still unplaced,
and grows from each. -/
def placeGroups (g : InteractionGraph) (t : Topology) (candidates : List LogicalQubit) :
    Nat → Layout → Except Fault Layout
  | 0, m => .ok m
  | fuel + 1, m =>
    match heaviestUnplaced g candidates m with
    | none => .ok m
    | some seed => do
      let (_, m) ← t.placeAnywhere m seed
      let m ← grow g t m seed
      placeGroups g t candidates fuel m

/-- Places all qubits of a circuit. -/
def initialPlacement (options : PlacementOptions) (g : InteractionGraph) (t : Topology) :
    Except Fault Layout :=
  let connected := g.qubitIds.filter g.isConnected
  match heaviestUnplaced g connected .empty with
  | none =>
    if !options.allowIsolated || g.qubits.size = 0 then .error (.noInteractions g.qubits.size)
    else placeRemaining t g.qubitIds .empty
  | some seed => do
    let start ← t.startingPosition connected.length
    let m ← grow g t (Layout.empty.assign seed start) seed
    let m ← placeGroups g t connected connected.length m
    placeRemaining t g.qubitIds m

end QubitRouting
