import QubitRouting.Interaction.Score
import QubitRouting.Routing.Split

/-!
# Routing strategies

To bring two qubits together, one has to decide which of them moves, and where on the path they
meet.
-/

set_option autoImplicit false

namespace QubitRouting

/-- Which of two qubits moves towards the other. -/
inductive MoverStrategy where
  /-- The one that is further from the center of the device. -/
  | distanceToCenter
  /-- The one whose interactions weigh less. -/
  | lessConnected
deriving DecidableEq, Repr, Inhabited

/-- Where two qubits meet. -/
inductive MeetingStrategy where
  /-- Next to the one that does not move. -/
  | truncate
  /-- Where the resulting layout has the highest score. -/
  | edgeScore
deriving DecidableEq, Repr, Inhabited

/-- The place of a logical qubit, which must be placed. -/
def InteractionGraph.placeOf (g : InteractionGraph) (m : Layout) (q : LogicalQubit) :
    Except Fault PhysicalQubit :=
  match m.physical q with
  | some p => .ok p
  | none => .error (.unplaced q (g.nameOf q))

namespace MoverStrategy

def name : MoverStrategy → String
  | distanceToCenter => "distance-to-center"
  | lessConnected => "less-connected"

/-- The distance of a placed qubit from `center`. -/
def distanceFrom (g : InteractionGraph) (t : Topology) (m : Layout) (center : PhysicalQubit)
    (q : LogicalQubit) : Except Fault Nat := do
  let p ← g.placeOf m q
  match t.distance p center with
  | some d => .ok d
  | none => .error (.unreachable p center)

/-- Of two qubits, the one that moves and the one that stays. If neither has a reason to stay, the
first one moves. -/
def select (s : MoverStrategy) (g : InteractionGraph) (t : Topology) (m : Layout)
    (a b : LogicalQubit) : Except Fault (LogicalQubit × LogicalQubit) :=
  match s with
  | distanceToCenter => do
    let center ← t.center
    let da ← distanceFrom g t m center a
    let db ← distanceFrom g t m center b
    return if db ≤ da then (a, b) else (b, a)
  | lessConnected => return if g.totalWeight a ≤ g.totalWeight b then (a, b) else (b, a)

end MoverStrategy

namespace MeetingStrategy

def name : MeetingStrategy → String
  | truncate => "truncate"
  | edgeScore => "edge-score"

/-- The last place of a path at which the mover can stop. -/
def lastStop (path : List PhysicalQubit) : Nat := path.length - 2

/-- Where on the path from the mover to the other qubit the mover stops. Of equally good places the
last one is taken. -/
def meetingPlace (s : MeetingStrategy) (g : InteractionGraph) (t : Topology) (m : Layout)
    (path : List PhysicalQubit) : Nat :=
  match s with
  | truncate => lastStop path
  | edgeScore =>
    let stops := (List.range (lastStop path + 1)).reverse
    let score (k : Nat) : Weight := g.score t (m.swaps (splitSwaps path k))
    match firstBest (fun (w v : Weight) => v < w) score stops with
    | some (k, _) => k
    | none => lastStop path

end MeetingStrategy

end QubitRouting
