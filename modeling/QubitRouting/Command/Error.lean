import QubitRouting.Command.Files
import QubitRouting.Config.Codec
import QubitRouting.Mapping.Error

/-!
# Command errors
-/

set_option autoImplicit false

namespace QubitRouting

/-- Why a command fails. -/
inductive CommandError where
  | unknownReport (name : String)
  | notFound (path : String)
  | unreadable (path : String) (cause : FileError)
  | invalidJson (path : String)
  | invalidYaml (path : String)
  | invalidConfiguration (path : String) (cause : ConfigError)
  | invalidTopology (cause : Fault)
  | unreadableDirectory (path : String) (cause : FileError)
  | noCircuits (path : String)
  | directoryNotMade (path : String) (cause : FileError)
  | notAFile (path : String)
  | unmapped (path : String) (cause : MappingError)
  | unwritten (path : String) (cause : FileError)
  | fault (cause : Fault)
deriving DecidableEq, Repr

namespace CommandError

/-- The message with the messages of its causes. -/
def chain : CommandError → List String
  | unknownReport name => [s!"Unknown report format: '{name}'. Available: table, json"]
  | notFound path => [s!"File not found: {path}"]
  | unreadable path cause => [s!"Failed to read file: {path}", cause.message]
  | invalidJson path => [s!"Invalid JSON: {path}"]
  | invalidYaml path => [s!"Invalid YAML: {path}"]
  | invalidConfiguration path cause => s!"Invalid configuration: {path}" :: cause.message?.toList
  | invalidTopology cause => ["Invalid topology", cause.message]
  | unreadableDirectory path cause => [s!"Failed to read directory: {path}", cause.message]
  | noCircuits path => [s!"No .qasm files in {path}"]
  | directoryNotMade path cause => [s!"Failed to create directory: {path}", cause.message]
  | notAFile path => [s!"Not a file: {path}"]
  | unmapped path cause => s!"Failed to map {path}" :: cause.chain
  | unwritten path cause => [s!"Failed to write file: {path}", cause.message]
  | fault cause => [cause.message]

def message (e : CommandError) : String := String.intercalate ": " e.chain

end CommandError

end QubitRouting
