import QubitRouting.Circuit.Cost
import QubitRouting.Circuit.Instruction
import QubitRouting.Circuit.Parser
import QubitRouting.Mapping.Error
import QubitRouting.Session

/-!
# The two passes over a program

The first pass declares all qubits and classical bits of a program and records its interactions. The
second one, after placement, writes the program over the qubits of the device, with swaps inserted
where qubits have to be brought together.

A pass that fails keeps what it has done to the session before.
-/

set_option autoImplicit false

namespace QubitRouting

/-- A step of a pass. -/
abbrev PassM := ExceptT MappingError (StateM Session)

namespace Pass

/-- An operation of the session, as a step. -/
def onSession {α : Type} (op : SessionM α) : PassM α := op.adapt .fault

/-- The expansion of operands, as a step. -/
def onRegisters {α : Type} (result : Except RegisterError α) : PassM α :=
  ExceptT.adapt .registerError (liftM result : ExceptT RegisterError (StateM Session) α)

/-! ## Collecting -/

/-- Declares qubits. -/
def declareQubits (names : List String) : PassM Unit :=
  names.forM fun name => discard (onSession (Session.addQubit name))

/-- Declares classical bits. -/
def declareBits (names : List String) : PassM Unit :=
  names.forM fun name => discard (onSession (Session.addBit name))

/-- Takes note of an instruction. Two qubits in a gate are an interaction. -/
def collectInstruction : Instruction String → PassM Unit
  | .creg decl => declareBits decl.elements
  | .gate _ _ [a, b] => discard (onSession (Session.recordInteraction a b))
  | .gate _ _ names => declareQubits names
  | .measure qubit bit => do
    declareQubits [qubit]
    declareBits [bit]
  | .reset qubit => declareQubits [qubit]
  | .barrier names => declareQubits names

/-- Takes note of a statement. The operands of a barrier are expanded one after the other, each when
its turn has come. -/
def collectStatement (r : Registers) : Statement → PassM Unit
  | .qreg decl => declareQubits decl.elements
  | .barrier qubits =>
    qubits.forM fun o => do collectInstruction (.barrier (← onRegisters (r.expandQubits o)))
  | st => do (← onRegisters (r.instructions st)).forM collectInstruction

/-- The first pass. -/
def collect (p : Program) : PassM Registers := do
  let r := Registers.ofProgram p
  p.statements.forM (collectStatement r)
  return r

/-! ## Emitting -/

/-- A piece of a mapped circuit, and its cost, which is counted with 64 bits. -/
structure Emission where
  instructions : List (Instruction PhysicalQubit)
  cost : UInt64
deriving Repr

namespace Emission

def empty : Emission := ⟨[], 0⟩

instance : Append Emission where
  append a b := ⟨a.instructions ++ b.instructions, a.cost + b.cost⟩

/-- A piece without gates. -/
def free (instructions : List (Instruction PhysicalQubit)) : Emission := ⟨instructions, 0⟩

/-- Pieces put together. -/
def join (es : List Emission) : Emission := es.foldr (· ++ ·) empty

/-- Inserted swaps. -/
def ofSwaps (costs : CostModel) (swaps : List Swap) : Emission :=
  ⟨swaps.map .ofSwap, .ofNat (swaps.length * costs.swap)⟩

end Emission

/-- Where a qubit sits at present. -/
def resolve (name : String) : PassM PhysicalQubit := onSession (Session.resolve name)

/-- Brings the qubits of a gate together, if it acts on two. -/
def approach (costs : CostModel) : List String → PassM Emission
  | [a, b] => return .ofSwaps costs (← onSession (Session.routeAdjacent a b))
  | _ => return .empty

/-- Writes an instruction over the qubits of the device, behind the swaps that it needs. -/
def emitInstruction (costs : CostModel) : Instruction String → PassM Emission
  | .creg decl => return .free [.creg decl]
  | .gate name params names => do
    let swaps ← approach costs names
    let qubits ← names.mapM resolve
    return swaps ++ ⟨[.gate name params qubits], .ofNat (costs.gateCost name names.length)⟩
  | .measure qubit bit => return .free [.measure (← resolve qubit) bit]
  | .reset qubit => return .free [.reset (← resolve qubit)]
  | .barrier names => return .free [.barrier (← names.mapM resolve)]

/-- Writes a statement. The operands of a barrier are expanded one after the other, each when its
turn has come. -/
def emitStatement (costs : CostModel) (r : Registers) : Statement → PassM Emission
  | .barrier qubits => do
    let places ← qubits.mapM fun o => do (← onRegisters (r.expandQubits o)).mapM resolve
    return .free [.barrier places.flatten]
  | st => return .join (← (← onRegisters (r.instructions st)).mapM (emitInstruction costs))

/-- The size of a register that has all qubits of a device: one more than the largest number, with
32 bits, and so zero if that number is the last one. -/
def registerSize (t : Topology) : UInt32 :=
  (t.qubits.map (·.id)).max?.elim 0 fun top => .ofNat top + 1

/-- A mapped circuit and its report. -/
structure Mapped where
  circuit : MappedCircuit
  report : Report
deriving Repr

/-- The second pass. -/
def emit (p : Program) (r : Registers) (costs : CostModel) : PassM Mapped := do
  let initial ← r.qubitNames.mapM resolve
  let body := Emission.join (← p.statements.mapM (emitStatement costs r))
  let s ← get
  return {
    circuit :=
      { version := p.version
        includes := p.includes
        size := registerSize s.topology
        initial
        instructions := body.instructions }
    report := ⟨s.metrics, body.cost⟩ }

/-- Both passes, with the placement between them. -/
def run (p : Program) (costs : CostModel) : PassM Mapped := do
  let r ← collect p
  discard (onSession Session.place)
  emit p r costs

end Pass

/-- How circuits are mapped to a device. -/
structure MapperSettings where
  placement : PlacementOptions := {}
  router : Router := {}
deriving DecidableEq, Repr

/-- A fresh session with these settings. -/
def MapperSettings.session (settings : MapperSettings) (t : Topology) : Session :=
  .new t settings.placement settings.router

/-- Maps a source text to a device. -/
def remap (source : String) (t : Topology) (settings : MapperSettings) (costs : CostModel) :
    Except MappingError Pass.Mapped :=
  match Program.parse source with
  | .error e => .error (.syntaxError e)
  | .ok p => ((Pass.run p costs).run.run (settings.session t)).1

end QubitRouting
