import QubitRouting.Circuit.Program

/-!
# Registers and broadcasting

An operand stands for one name, or for all elements of a register. A gate on whole registers is
applied element by element, where an operand with a single name takes part in every application.
-/

set_option autoImplicit false

namespace QubitRouting

inductive RegisterError where
  | indexOutOfBounds (register : String) (index size : Nat)
  | sizeMismatch (left : String) (leftSize : Nat) (right : String) (rightSize : Nat)
deriving DecidableEq, Repr

namespace RegisterError

def message : RegisterError → String
  | indexOutOfBounds register index size =>
    s!"Index {index} out of bounds for register '{register}' of size {size}"
  | sizeMismatch left leftSize right rightSize =>
    s!"Register size mismatch: '{left}' has {leftSize} elements, '{right}' has {rightSize}"

end RegisterError

/-- The names that an operand stands for, with the operand as it is written. -/
structure Expansion where
  label : String
  names : List String
deriving DecidableEq, Repr

namespace Expansion

/-- How many applications these expansions make: the size of those that are not single names, which
must agree. -/
def width (es : List Expansion) : Except RegisterError Nat :=
  match es.filter (·.names.length ≠ 1) with
  | [] => .ok 1
  | e :: rest =>
    match rest.find? (·.names.length ≠ e.names.length) with
    | some f => .error (.sizeMismatch e.label e.names.length f.label f.names.length)
    | none => .ok e.names.length

/-- The name that takes part in application `i`. -/
def pick (e : Expansion) (i : Nat) : String :=
  match e.names with
  | [name] => name
  | names => names.getD i ""

/-- The names of each application. -/
def broadcast (es : List Expansion) : Except RegisterError (List (List String)) := do
  let n ← width es
  return (List.range n).map fun i => es.map (·.pick i)

end Expansion

/-- The registers that a program declares. -/
structure Registers where
  qregs : List RegisterDecl
  cregs : List RegisterDecl
deriving DecidableEq, Repr

namespace Registers

def ofProgram (p : Program) : Registers := ⟨p.qregs, p.cregs⟩

/-- The names of all declared qubits, in order. -/
def qubitNames (r : Registers) : List String := r.qregs.flatMap (·.elements)

/-- The names of all declared classical bits, in order. -/
def bitNames (r : Registers) : List String := r.cregs.flatMap (·.elements)

/-- The size of a register by its last declaration. -/
def sizeOf? (decls : List RegisterDecl) (name : String) : Option Nat :=
  (decls.reverse.find? (·.name = name)).map (·.size)

/-- What an operand stands for. Names that are not declared are taken as they are. -/
def expand (decls : List RegisterDecl) (o : Operand) : Except RegisterError (List String) :=
  match sizeOf? decls o.register, o.index with
  | some size, some i =>
    if size ≤ i then .error (.indexOutOfBounds o.register i size) else .ok [o.text]
  | some size, none => .ok (RegisterDecl.elements ⟨o.register, size⟩)
  | none, _ => .ok [o.text]

/-- The qubits that an operand stands for. -/
def expandQubits (r : Registers) (o : Operand) : Except RegisterError (List String) :=
  expand r.qregs o

/-- The classical bits that an operand stands for. -/
def expandBits (r : Registers) (o : Operand) : Except RegisterError (List String) :=
  expand r.cregs o

/-- The qubits of each application of a gate to these operands. -/
def applications (r : Registers) (operands : List Operand) :
    Except RegisterError (List (List String)) := do
  Expansion.broadcast (← operands.mapM fun o => return ⟨o.text, ← r.expandQubits o⟩)

/-- The qubits that a measurement reads, each with the bit that it sets. -/
def measurements (r : Registers) (qubit bit : Operand) :
    Except RegisterError (List (String × String)) := do
  let qubits : Expansion := ⟨qubit.text, ← r.expandQubits qubit⟩
  let bits : Expansion := ⟨bit.text, ← r.expandBits bit⟩
  let n ← Expansion.width [qubits, bits]
  return (List.range n).map fun i => (qubits.pick i, bits.pick i)

end Registers

end QubitRouting
