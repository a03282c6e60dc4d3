/-!
# Syntax errors

Why a text is not a program, and how the reason is worded.
-/

set_option autoImplicit false

namespace QubitRouting

/-- Gates act on at most this many qubits. -/
def maxGateOperands : Nat := 2

/-- Parts of the full circuit language that are left out. -/
inductive Unsupported where
  /-- A statement that starts with this word. -/
  | statement (word : String)
  /-- A gate on too many qubits. -/
  | operands (gate : String) (count : Nat)
  /-- A register size or element index that is too large. -/
  | index (value : Nat)
deriving DecidableEq, Repr

namespace Unsupported

def message : Unsupported → String
  | statement word => s!"'{word}' statements"
  | operands gate count => s!"gate '{gate}' acts on {count} qubits (at most {maxGateOperands})"
  | index value => s!"index {value} does not fit in 32 bits"

end Unsupported

inductive SyntaxError where
  /-- A text that is no token. -/
  | invalidToken (line : Nat) (text : String)
  | unexpected (line : Nat) (expected found : String)
  | endOfInput (wanted : String)
  | version (text : String)
  | unsupported (line : Nat) (what : Unsupported)
deriving DecidableEq, Repr

/-- What is said about a text that is no token. -/
def invalidTokenMessage (text : String) : String := s!"invalid token '{text}'"

namespace SyntaxError

def message : SyntaxError → String
  | invalidToken line text => s!"Lexer error at line {line}: {invalidTokenMessage text}"
  | unexpected line expected found =>
    s!"Unexpected token at line {line}: expected {expected}, found {found}"
  | endOfInput wanted => s!"Unexpected end of input: {wanted}"
  | version text => s!"Invalid OPENQASM version: {text}"
  | unsupported line what => s!"Unsupported at line {line}: {what.message}"

end SyntaxError

end QubitRouting
