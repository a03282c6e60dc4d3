import QubitRouting.Command.Arguments
import QubitRouting.Command.Describe

/-!
# Running commands
-/

set_option autoImplicit false

namespace QubitRouting

/-- The lines of the help on a subcommand, or on all. -/
def helpLines : Option String → List String
  | some "map" =>
    ["Place and route a circuit file or every .qasm file in a directory",
      "",
      "Usage: qmap map [OPTIONS] --input <INPUT> --output <OUTPUT>",
      "",
      "Options:",
      "  -i, --input <INPUT>        Input file or directory",
      "  -v, --verbose...           Increase verbosity (-v, -vv, -vvv)",
      "  -o, --output <OUTPUT>      Output directory",
      "  -t, --topology <TOPOLOGY>  Mapper configuration or topology file (YAML or JSON)",
      "      --mover <MOVER>        Which operand moves (center, connectivity)",
      "      --meeting <MEETING>    Where the operands meet (truncate, edge-score)",
      "  -r, --report <REPORT>      Report format (table, json) [default: table]",
      "  -h, --help                 Print help"]
  | some "topology" =>
    ["Describe a topology",
      "",
      "Usage: qmap topology [OPTIONS]",
      "",
      "Options:",
      "  -t, --topology <TOPOLOGY>  Mapper configuration or topology file (YAML or JSON)",
      "  -v, --verbose...           Increase verbosity (-v, -vv, -vvv)",
      "  -h, --help                 Print help"]
  | some "version" =>
    ["Show version information",
      "",
      "Usage: qmap version [OPTIONS]",
      "",
      "Options:",
      "  -v, --verbose...  Increase verbosity (-v, -vv, -vvv)",
      "  -h, --help        Print help"]
  | _ =>
    ["qmap - qubit placement and SWAP routing for OpenQASM 2 circuits",
      "",
      "Usage: qmap [OPTIONS] <COMMAND>",
      "",
      "Commands:",
      "  map       Place and route a circuit file or every .qasm file in a directory",
      "  topology  Describe a topology",
      "  version   Show version information",
      "  help      Print this message or the help of the given subcommand(s)",
      "",
      "Options:",
      "  -v, --verbose...  Increase verbosity (-v, -vv, -vvv)",
      "  -h, --help        Print help",
      "  -V, --version     Print version"]

/-- The outcome of a call that cannot be understood. -/
def usageOutcome : Outcome :=
  { code := 2, stderr := "error: invalid arguments\n\nFor more information, try '--help'.\n" }

section

variable {m : Type → Type} [Monad m] [FileAccess m]

/-- What a command does. -/
def Command.perform : Command → CommandM m Unit
  | map options => mapFiles options
  | topology configuration? => describeTopology configuration?
  | version => versionLines.forM CommandM.printLine
  | programVersion => CommandM.printLine s!"qmap {QubitRouting.programVersion}"
  | help subcommand? => (helpLines subcommand?).forM CommandM.printLine

/-- Runs the command that the arguments ask for. -/
def runArguments (args : List String) (default? : Option String) : m Outcome :=
  match Command.ofArguments? args default? with
  | some c => CommandM.outcome c.perform
  | none => pure usageOutcome

end

end QubitRouting
