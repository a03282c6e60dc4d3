import QubitRouting.Metrics
import QubitRouting.Placement.Initial
import QubitRouting.Routing.Router

/-!
# Mapping sessions

A session maps circuits to one device in two phases. First qubits are declared and interactions are
recorded; then everything is placed at once. From then on the interactions are fixed, and qubits are
routed to each other as gates demand.

Nothing is rolled back: what an operation has changed before it fails stays changed. That there
never is anything to roll back is shown in `Proofs/Session/Faults.lean`.
-/

set_option autoImplicit false

namespace QubitRouting

/-- The layout that placement found, and the present one. -/
structure Placed where
  initial : Layout
  current : Layout

/-- The state of a session. -/
structure Session where
  topology : Topology
  options : PlacementOptions
  router : Router
  graph : InteractionGraph
  placed : Option Placed
  twoQubitOps : Nat
  swaps : Nat

/-- An operation on a session, which may fail. -/
abbrev SessionM := ExceptT Fault (StateM Session)

namespace Session

/-- A session in which nothing has happened. -/
def new (topology : Topology) (options : PlacementOptions) (router : Router) : Session where
  topology
  options
  router
  graph := .empty
  placed := none
  twoQubitOps := 0
  swaps := 0

/-- The present layout. -/
def layout? (s : Session) : Option Layout := s.placed.map (·.current)

/-- The layout that placement found. -/
def initialLayout? (s : Session) : Option Layout := s.placed.map (·.initial)

def isPlaced (s : Session) : Bool := s.placed.isSome

def metrics (s : Session) : Metrics where
  logicalQubits := s.graph.qubits.size
  twoQubitOps := s.twoQubitOps
  swaps := s.swaps

/-- Declares a qubit. -/
def addQubit (name : String) : SessionM LogicalQubit := do
  let s ← get
  let (q, graph) := s.graph.addQubit name
  set { s with graph }
  return q

/-- Declares a classical bit. -/
def addBit (name : String) : SessionM Nat := do
  let s ← get
  let (i, graph) := s.graph.addBit name
  set { s with graph }
  return i

/-- Records that two qubits meet in a gate. -/
def recordInteraction (a b : String) : SessionM Nat := do
  let s ← get
  if s.isPlaced then throw (.frozen a b)
  let (result, graph) := s.graph.recordNamed a b
  set { s with graph }
  liftM result

/-- Places all qubits, unless this has been done, and returns the present layout. -/
def place : SessionM Layout := do
  let s ← get
  match s.placed with
  | some placed => return placed.current
  | none =>
    let layout ← initialPlacement s.options s.graph s.topology
    set { s with placed := some ⟨layout, layout⟩ }
    return layout

/-- The qubit with a given name, which must exist. -/
def lookup (s : Session) (name : String) : Except Fault LogicalQubit :=
  match s.graph.named? name with
  | some q => .ok q
  | none => .error (.unknownQubit .routing name)

/-- The placement, which must have been done. -/
def requirePlaced (s : Session) : Except Fault Placed :=
  match s.placed with
  | some placed => .ok placed
  | none => .error .notPlaced

/-- Brings two qubits next to each other and returns the swaps that it takes. -/
def routeAdjacent (a b : String) : SessionM (List Swap) := do
  let s ← get
  let a ← s.lookup a
  let b ← s.lookup b
  let placed ← s.requirePlaced
  let (swaps, current) ← s.router.route s.graph s.topology placed.current a b
  set
    { s with
      placed := some { placed with current }
      twoQubitOps := s.twoQubitOps + 1
      swaps := s.swaps + swaps.length }
  return swaps

/-- Where a qubit sits at present. -/
def resolve (name : String) : SessionM PhysicalQubit := do
  let s ← get
  let q ← s.lookup name
  let placed ← s.requirePlaced
  match placed.current.physical q with
  | some p => return p
  | none => throw (.unplaced q name)

end Session

end QubitRouting
