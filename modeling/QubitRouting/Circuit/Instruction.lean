import QubitRouting.Circuit.Registers
import QubitRouting.Layout

/-!
# Instructions

A program in which every operand is a single qubit. The same instructions describe the source
circuit, over the names of its qubits, and the mapped one, over the qubits of the device.
-/

set_option autoImplicit false

namespace QubitRouting

/-- A step of a circuit over qubits of type `Q`. -/
inductive Instruction (Q : Type) where
  /-- The declaration of a classical register. -/
  | creg (decl : RegisterDecl)
  | gate (name : String) (params : Option String) (qubits : List Q)
  | measure (qubit : Q) (bit : String)
  | reset (qubit : Q)
  | barrier (qubits : List Q)
deriving DecidableEq, Repr

namespace Instruction

/-- The instruction for a swap. -/
def ofSwap (s : Swap) : Instruction PhysicalQubit := .gate "swap" none [s.1, s.2]

/-- The labels of qubits with commas between them. -/
def labels (qs : List PhysicalQubit) : String := String.intercalate "," (qs.map (·.label))

/-- The instruction as a statement over the device register. -/
def text : Instruction PhysicalQubit → String
  | creg decl => s!"creg {decl.name}[{decl.size}];"
  | gate name none qs => s!"{name} {labels qs};"
  | gate name (some params) qs => s!"{name}({params}) {labels qs};"
  | measure q bit => s!"measure {q.label} -> {bit};"
  | reset q => s!"reset {q.label};"
  | barrier qs => s!"barrier {labels qs};"

end Instruction

/-- What a statement does, operand by operand. Quantum registers and included files do nothing. -/
def Registers.instructions (r : Registers) :
    Statement → Except RegisterError (List (Instruction String))
  | .includes _ | .qreg _ => return []
  | .creg decl => return [.creg decl]
  | .gate call => return (← r.applications call.operands).map (.gate call.name call.params)
  | .measure qubit bit => return (← r.measurements qubit bit).map fun (q, b) => .measure q b
  | .reset qubit => return (← r.expandQubits qubit).map .reset
  | .barrier qubits => return [.barrier (← qubits.mapM r.expandQubits).flatten]

/-- A circuit over the qubits of a device. -/
structure MappedCircuit where
  version : String
  includes : List String
  /-- The size of the device register. -/
  size : UInt32
  /-- Where the declared qubits of the source sit at the beginning. -/
  initial : List PhysicalQubit
  instructions : List (Instruction PhysicalQubit)
deriving DecidableEq, Repr

namespace MappedCircuit

/-- What the comment with the initial places starts with. -/
def initialMarker : String := "//i"

/-- The lines of the circuit. -/
def lines (c : MappedCircuit) : List String :=
  String.join (initialMarker :: c.initial.map (" " ++ ·.label)) ::
    "" ::
    s!"OPENQASM {c.version};" ::
    c.includes.map (fun path => "include \"" ++ path ++ "\";") ++
    s!"qreg {deviceRegister}[{c.size}];" ::
    c.instructions.map (·.text)

/-- The circuit as a source text. -/
def text (c : MappedCircuit) : String := String.join (c.lines.map (· ++ "\n"))

end MappedCircuit

end QubitRouting
