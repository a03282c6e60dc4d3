import QubitRouting.Command.Console

/-!
# Describing devices and the program
-/

set_option autoImplicit false

namespace QubitRouting

/-- A text with blanks in front, so that it is at least `width` characters long. -/
def alignRight (width : Nat) (text : String) : String :=
  String.ofList (List.replicate (width - text.length) ' ') ++ text

/-- The line that lists the neighbours of a qubit. -/
def Topology.describe (t : Topology) (q : PhysicalQubit) : String :=
  let neighbors := String.intercalate " " ((t.neighbors q).map (·.label))
  let label := alignRight 6 q.label
  s!"  {label} -- {neighbors}"

/-- Describes the configured device. -/
def describeTopology {m : Type → Type} [Monad m] [FileAccess m] (configuration? : Option String) :
    CommandM m Unit := do
  let c ← Configuration.load configuration?
  let t ← c.topology
  CommandM.printLine s!"Topology: {t.size} qubits, {t.links.length} edges"
  let center ← CommandM.orFail .fault t.center
  CommandM.printLine s!"  Center: {center.label}"
  CommandM.printLine ""
  t.qubits.forM fun q => CommandM.printLine (t.describe q)

def programVersion : String := "0.3.0"

/-- The lines that describe the program. -/
def versionLines : List String :=
  [s!"qmap v{programVersion} - qubit placement and SWAP routing",
    "",
    "Components:",
    "  qmap-core  Interaction graph, placement and routing",
    "  qmap-qasm  OpenQASM 2 front-end and back-end",
    "  qmap-cli   Command-line interface",
    "",
    "License:    Apache-2.0"]

end QubitRouting
