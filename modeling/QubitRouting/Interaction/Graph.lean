import QubitRouting.Fault
import QubitRouting.Interaction.Weight

/-!
# Interaction graphs

Which qubits of a circuit meet in two-qubit gates, and how strongly. Qubits are numbered in the
order in which their names first occur, and so are classical bits and interactions. The graph keeps
an index for each of the three, and every qubit a list of its interactions.

The first meeting of two qubits gives their interaction its initial weight. Every further one adds
to it, the less the more both qubits have been busy with others in between: the *usage* of a qubit
counts its repeated meetings, and an interaction remembers the usage that its two qubits had when
they last met.
-/

set_option autoImplicit false

namespace QubitRouting

/-- A qubit of the circuit. `incident` has the numbers of its interactions, in order, and `usage`
counts its meetings other than first ones, in 32 bits. -/
structure QubitRecord where
  name : String
  incident : Array Nat
  usage : UInt32
deriving DecidableEq, Repr

/-- Two qubits that meet. `baseline` is their joint usage after their last meeting. -/
structure Interaction where
  first : LogicalQubit
  second : LogicalQubit
  weight : Weight
  baseline : UInt32
deriving Repr

namespace Interaction

/-- The weight of a first meeting. -/
def initialWeight : Weight := 2.0

/-- What a further meeting adds if nothing happened in between. -/
def weightIncrement : Weight := 1.0

/-- Whether a qubit takes part. -/
def involves (e : Interaction) (q : LogicalQubit) : Bool := e.first = q || e.second = q

/-- Whether these are the two qubits, in either order. -/
def joins (e : Interaction) (a b : LogicalQubit) : Bool :=
  (e.first = a && e.second = b) || (e.first = b && e.second = a)

/-- The partner of a qubit. -/
def other? (e : Interaction) (q : LogicalQubit) : Option LogicalQubit :=
  if e.first = q then some e.second
  else if e.second = q then some e.first
  else none

end Interaction

/-- Two qubits in the order of their numbers. -/
def pairKey (a b : LogicalQubit) : LogicalQubit × LogicalQubit :=
  if a.id < b.id then (a, b) else (b, a)

/-- The qubits, classical bits and interactions of a circuit. An index lists what has been entered,
the latest entry first; interactions are entered under the `pairKey` of their qubits. -/
structure InteractionGraph where
  qubits : Array QubitRecord
  qubitIndex : List (String × Nat)
  bits : Array String
  bitIndex : List (String × Nat)
  interactions : Array Interaction
  pairIndex : List ((LogicalQubit × LogicalQubit) × Nat)
deriving Repr

namespace InteractionGraph

def empty : InteractionGraph := ⟨#[], [], #[], [], #[], []⟩

instance : Inhabited InteractionGraph := ⟨empty⟩

/-! ## Qubits and bits -/

/-- All qubits, in order. -/
def qubitIds (g : InteractionGraph) : List LogicalQubit := (List.range g.qubits.size).map .mk

def qubit? (g : InteractionGraph) (q : LogicalQubit) : Option QubitRecord := g.qubits[q.id]?

/-- The qubit with this name. -/
def named? (g : InteractionGraph) (name : String) : Option LogicalQubit :=
  (g.qubitIndex.lookup name).map .mk

/-- The number of the classical bit with this name. -/
def bitNamed? (g : InteractionGraph) (name : String) : Option Nat := g.bitIndex.lookup name

/-- The name of a qubit; one that does not exist is shown by its number. -/
def nameOf (g : InteractionGraph) (q : LogicalQubit) : String :=
  match g.qubit? q with
  | some record => record.name
  | none => q.label

/-- The qubit with this name, which is added if it is new. -/
def addQubit (g : InteractionGraph) (name : String) : LogicalQubit × InteractionGraph :=
  match g.named? name with
  | some q => (q, g)
  | none =>
    let i := g.qubits.size
    let record : QubitRecord := { name, incident := #[], usage := 0 }
    (⟨i⟩, { g with qubits := g.qubits.push record, qubitIndex := (name, i) :: g.qubitIndex })

/-- The number of the classical bit with this name, which is added if it is new. -/
def addBit (g : InteractionGraph) (name : String) : Nat × InteractionGraph :=
  match g.bitNamed? name with
  | some i => (i, g)
  | none =>
    let i := g.bits.size
    (i, { g with bits := g.bits.push name, bitIndex := (name, i) :: g.bitIndex })

/-! ## Interactions -/

/-- The number of the interaction between two qubits. -/
def between? (g : InteractionGraph) (a b : LogicalQubit) : Option Nat :=
  g.pairIndex.lookup (pairKey a b)

/-- The numbers of the interactions of a qubit, in order. -/
def incident (g : InteractionGraph) (q : LogicalQubit) : List Nat :=
  match g.qubit? q with
  | some record => record.incident.toList
  | none => []

/-- The partners of a qubit with the weights of the interactions, in the order of these. -/
def partners (g : InteractionGraph) (q : LogicalQubit) : List (LogicalQubit × Weight) :=
  (g.incident q).filterMap fun i => do
    let e ← g.interactions[i]?
    let other ← e.other? q
    return (other, e.weight)

/-- Whether a qubit meets another one. -/
def isConnected (g : InteractionGraph) (q : LogicalQubit) : Bool :=
  !(g.incident q).isEmpty

/-- The weight of all interactions of a qubit. -/
def totalWeight (g : InteractionGraph) (q : LogicalQubit) : Weight :=
  Weight.sum ((g.partners q).map (·.2))

/-- The usage of a qubit. -/
def usage (g : InteractionGraph) (q : LogicalQubit) : UInt32 :=
  match g.qubit? q with
  | some record => record.usage
  | none => 0

/-- The joint usage of two qubits. -/
def jointUsage (g : InteractionGraph) (a b : LogicalQubit) : UInt32 := g.usage a + g.usage b

/-- Counts one more repeated meeting of a qubit. -/
def use (g : InteractionGraph) (q : LogicalQubit) : InteractionGraph :=
  { g with qubits := g.qubits.modify q.id fun r => { r with usage := r.usage + 1 } }

/-- The usage of the two qubits since they last met, but not less than zero. -/
def intervening (g : InteractionGraph) (e : Interaction) : UInt32 :=
  let now := g.jointUsage e.first e.second
  if e.baseline ≤ now then now - e.baseline else 0

/-- What a further meeting adds when both qubits together have met others this often in between. -/
def damped (intervening : UInt32) : Weight :=
  Interaction.weightIncrement / (1.0 + Float.ofNat intervening.toNat)

/-- A further meeting in interaction `i`. -/
def reinforce (g : InteractionGraph) (i : Nat) (e : Interaction) : InteractionGraph :=
  let weight := e.weight + damped (g.intervening e)
  let g := (g.use e.first).use e.second
  let e := { e with weight, baseline := g.jointUsage e.first e.second }
  { g with interactions := g.interactions.setIfInBounds i e }

/-- Adds an interaction to the list of a qubit. -/
def enlist (g : InteractionGraph) (i : Nat) (q : LogicalQubit) : InteractionGraph :=
  { g with qubits := g.qubits.modify q.id fun r => { r with incident := r.incident.push i } }

/-- The first meeting of two qubits. -/
def introduce (g : InteractionGraph) (a b : LogicalQubit) : InteractionGraph :=
  let i := g.interactions.size
  let e : Interaction :=
    { first := a, second := b, weight := Interaction.initialWeight, baseline := g.jointUsage a b }
  let g :=
    { g with
      interactions := g.interactions.push e
      pairIndex := (pairKey a b, i) :: g.pairIndex }
  (g.enlist i a).enlist i b

/-- Records a meeting of two qubits that exist. -/
def meet (g : InteractionGraph) (a b : LogicalQubit) : Nat × InteractionGraph :=
  match g.between? a b with
  | some i =>
    match g.interactions[i]? with
    | some e => (i, g.reinforce i e)
    | none => (i, g)
  | none => (g.interactions.size, g.introduce a b)

/-- Records a meeting of two different qubits, and returns the number of their interaction. The
graph is returned in any case: a meeting that is refused leaves one behind, too. -/
def record (g : InteractionGraph) (a b : LogicalQubit) : Except Fault Nat × InteractionGraph :=
  if (g.qubit? a).isNone then (.error (.unknownQubit .collection a.label), g)
  else if (g.qubit? b).isNone then (.error (.unknownQubit .collection b.label), g)
  else if a = b then (.error (.selfInteraction .collection (g.nameOf a)), g)
  else
    let (i, g) := g.meet a b
    (.ok i, g)

/-- Records a meeting of two qubits given by name, which are added if they are new. -/
def recordNamed (g : InteractionGraph) (a b : String) : Except Fault Nat × InteractionGraph :=
  if a = b then (.error (.selfInteraction .collection a), g)
  else
    let (a, g) := g.addQubit a
    let (b, g) := g.addQubit b
    g.record a b

end InteractionGraph

end QubitRouting
