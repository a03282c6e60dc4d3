/-!
# Circuit programs

A program is a version and a list of statements. Qubits and bits are named by *operands*, which
refer to a whole register or to one of its elements.
-/

set_option autoImplicit false

namespace QubitRouting

/-- The name of element `index` of a register. -/
def elementName (register : String) (index : Nat) : String := s!"{register}[{index}]"

/-- A register element `q[3]`, or a whole register `q`. -/
structure Operand where
  register : String
  index : Option Nat
deriving DecidableEq, Repr

namespace Operand

/-- The operand as it is written. -/
def text (o : Operand) : String :=
  match o.index with
  | some i => elementName o.register i
  | none => o.register

end Operand

/-- The declaration of a register of `size` elements. -/
structure RegisterDecl where
  name : String
  size : Nat
deriving DecidableEq, Repr

namespace RegisterDecl

/-- The names of the elements, in order. -/
def elements (r : RegisterDecl) : List String := (List.range r.size).map (elementName r.name)

end RegisterDecl

/-- A gate applied to one or two operands. `params` is the source text between the parentheses, and
`line` the line of the gate's name. -/
structure GateCall where
  name : String
  params : Option String
  operands : List Operand
  line : Nat
deriving DecidableEq, Repr

inductive Statement where
  | includes (path : String)
  | qreg (decl : RegisterDecl)
  | creg (decl : RegisterDecl)
  | gate (call : GateCall)
  | measure (qubit bit : Operand)
  | reset (qubit : Operand)
  | barrier (qubits : List Operand)
deriving DecidableEq, Repr

structure Program where
  version : String
  statements : List Statement
deriving DecidableEq, Repr

namespace Program

/-- The quantum registers, in the order of their declarations. -/
def qregs (p : Program) : List RegisterDecl :=
  p.statements.filterMap fun
    | .qreg decl => some decl
    | _ => none

/-- The classical registers, in the order of their declarations. -/
def cregs (p : Program) : List RegisterDecl :=
  p.statements.filterMap fun
    | .creg decl => some decl
    | _ => none

/-- The included files, in order. -/
def includes (p : Program) : List String :=
  p.statements.filterMap fun
    | .includes path => some path
    | _ => none

end Program

end QubitRouting
