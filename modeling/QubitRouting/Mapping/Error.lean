import QubitRouting.Circuit.Registers
import QubitRouting.Circuit.SyntaxError
import QubitRouting.Fault

/-!
# Mapping errors
-/

set_option autoImplicit false

namespace QubitRouting

/-- Why a source text has no mapped circuit. -/
inductive MappingError where
  | syntaxError (cause : SyntaxError)
  | registerError (cause : RegisterError)
  | fault (cause : Fault)
deriving DecidableEq, Repr

namespace MappingError

def message : MappingError → String
  | syntaxError cause => cause.message
  | registerError cause => cause.message
  | fault cause => s!"Mapping error: {cause.message}"

/-- The message with the messages of its causes. -/
def chain : MappingError → List String
  | fault cause => [(fault cause).message, cause.message]
  | e => [e.message]

end MappingError

end QubitRouting
