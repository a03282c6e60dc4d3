import QubitRouting.Interaction.Graph
import QubitRouting.Placement.Slots

/-!
# Growing a placement

From a placed qubit the placement grows along the interactions. Each interaction between a placed
and an unplaced qubit *pulls*; the strongest pull goes first, and of equal ones the oldest. The
pulled qubit is placed as near to the pulling one as possible, and then pulls its own partners.
-/

set_option autoImplicit false

namespace QubitRouting

/-- A placed qubit pulling an unplaced one. -/
structure Pull where
  weight : Weight
  source : LogicalQubit
  target : LogicalQubit
deriving Repr

namespace Pull

/-- Whether a pull is stronger than another one. -/
def stronger (p q : Pull) : Bool := q.weight.rank < p.weight.rank

/-- Adds a pull to pulls that are in order, behind those that are as strong. -/
def insert (p : Pull) : List Pull → List Pull
  | [] => [p]
  | q :: qs => if p.stronger q then p :: q :: qs else q :: insert p qs

/-- The pulls of a placed qubit on its unplaced partners. -/
def ofSource (g : InteractionGraph) (m : Layout) (source : LogicalQubit) : List Pull :=
  (g.partners source).filterMap fun (target, weight) =>
    if m.isPlaced target then none else some { weight, source, target }

/-- Adds the pulls of a placed qubit. -/
def addFrom (g : InteractionGraph) (m : Layout) (source : LogicalQubit) (pulls : List Pull) :
    List Pull :=
  (ofSource g m source).foldl (fun pulls p => p.insert pulls) pulls

end Pull

/-- Follows pulls, strongest first. A pull on a qubit that has been placed meanwhile is dropped. -/
def followPulls (g : InteractionGraph) (t : Topology) :
    Nat → List Pull → Layout → Except Fault Layout
  | 0, _, m => .ok m
  | _ + 1, [], m => .ok m
  | fuel + 1, pull :: pulls, m =>
    if m.isPlaced pull.target then followPulls g t fuel pulls m
    else
      match m.physical pull.source with
      | none => followPulls g t fuel pulls m
      | some anchor => do
        let place ← t.nearestFree m anchor
        let m := m.assign pull.target place
        followPulls g t fuel (Pull.addFrom g m pull.target pulls) m

/-- Every interaction pulls at most once from each of its two ends. -/
def pullBound (g : InteractionGraph) : Nat := 2 * g.interactions.size + 1

/-- Grows a placement from a placed qubit. -/
def grow (g : InteractionGraph) (t : Topology) (m : Layout) (seed : LogicalQubit) :
    Except Fault Layout :=
  followPulls g t (pullBound g) (Pull.addFrom g m seed []) m

end QubitRouting
