import QubitRouting.Command.Choice
import QubitRouting.Command.Console
import QubitRouting.Data.Json.Printer

/-!
# Mapping files

Maps one circuit file, or all circuit files of a directory in the order of their names, and reports
what it cost. Files that are mapped before one fails stay written.
-/

set_option autoImplicit false

namespace QubitRouting

/-- What to map and how to report it. The strategies, if given, replace those of the
configuration. -/
structure MapOptions where
  input : String
  output : String
  configuration? : Option String := none
  mover? : Option MoverStrategy := none
  meeting? : Option MeetingStrategy := none
  report : String := "table"
deriving DecidableEq, Repr

/-- How results are reported. -/
inductive ReportFormat where
  | table
  | json
deriving DecidableEq, Repr

/-- The report format with this name. -/
def ReportFormat.choose (text : String) : Except CommandError ReportFormat :=
  match Text.lowercase text with
  | "table" => .ok .table
  | "json" => .ok .json
  | other => .error (.unknownReport other)

/-- The result for one file. -/
structure FileReport where
  input : String
  output : String
  report : Report
deriving DecidableEq, Repr

namespace FileReport

def encode (r : FileReport) : Document :=
  .record ([("input", .text r.input), ("output", .text r.output)] ++ r.report.fields)

/-- The line of the table for this file. -/
def line (r : FileReport) : String :=
  let metrics := r.report.metrics
  s!"  {r.output}: {metrics.twoQubitOps} two-qubit ops, {metrics.swaps} swaps, cost {r.report.cost}"

/-- The reports of several files together. -/
def total (rs : List FileReport) : Report := Report.sum (rs.map (·.report))

/-- All results and their sum. -/
def encodeAll (rs : List FileReport) : Document :=
  .record [("files", .list (rs.map encode)), ("total", (total rs).encode)]

end FileReport

namespace MapOptions

/-- The configuration with the strategies that the options give. -/
def override (o : MapOptions) (c : Configuration) : Configuration :=
  let router := c.setup.mapper.router
  { c with
    setup.mapper.router.mover := o.mover?.getD router.mover
    setup.mapper.router.meeting := o.meeting?.getD router.meeting }

end MapOptions

section

variable {m : Type → Type} [Monad m] [FileAccess m]

open CommandM

/-- Which of the names in a directory are circuit files, in order. -/
def circuitFiles (directory : String) (names : List String) : m (List String) := do
  let paths := (names.filter (Path.hasExtension · "qasm")).map (Path.join directory)
  let files ← paths.filterM fun path => do return (← FileAccess.kind? path) == some .file
  return files.mergeSort

/-- The circuit files that an input names: the file itself, or those in the directory. -/
def circuitInputs (input : String) : CommandM m (List String) := do
  match ← onFiles (FileAccess.kind? input) with
  | none => throw (.notFound input)
  | some .file => return [input]
  | some .directory =>
    let names ← orFail (.unreadableDirectory input) (← onFiles (FileAccess.names input))
    let files ← onFiles (circuitFiles input names)
    if files.isEmpty then throw (.noCircuits input)
    return files

/-- Maps one file into the output directory. -/
def mapFile (t : Topology) (c : Configuration) (output input : String) : CommandM m FileReport := do
  let some name := Path.fileName? input | throw (.notAFile input)
  let source ← orFail (.unreadable input) (← onFiles (FileAccess.read input))
  let mapped ← orFail (.unmapped input) (remap source t c.setup.mapper c.costs)
  let target := Path.join output name
  orFail (.unwritten target) (← onFiles (FileAccess.write target mapped.circuit.text))
  return { input, output := target, report := mapped.report }

/-- Maps the files that the options name. -/
def mapFiles (o : MapOptions) : CommandM m Unit := do
  let format ← orFail id (ReportFormat.choose o.report)
  let c := o.override (← Configuration.load o.configuration?)
  let t ← c.topology
  let inputs ← circuitInputs o.input
  orFail (.directoryNotMade o.output) (← onFiles (FileAccess.makeDirectory o.output))
  let router := c.setup.mapper.router
  match format with
  | .json =>
    let reports ← inputs.mapM (mapFile t c o.output)
    printLine ((FileReport.encodeAll reports).renderIndented 0)
  | .table =>
    printLine (s!"→ Mapping {inputs.length} file(s) onto {t.size} qubits " ++
      s!"(mover {router.mover.name}, meeting {router.meeting.name})")
    let reports ← inputs.mapM (mapFile t c o.output)
    reports.forM (printLine ·.line)
    let total := FileReport.total reports
    printLine s!"✓ Inserted {total.metrics.swaps} swaps in total (cost {total.cost})"

end

end QubitRouting
