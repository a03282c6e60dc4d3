import QubitRouting.Command.Error
import QubitRouting.Data.Json.Reader
import QubitRouting.Data.Yaml.Reader

/-!
# What commands are made of

A command reaches files, prints lines, and may fail. All that it printed before it failed stays
printed.
-/

set_option autoImplicit false

namespace QubitRouting

/-- A computation that prints and may fail. -/
abbrev CommandM (m : Type → Type) := ExceptT CommandError (StateT String m)

/-- What a finished command leaves behind. -/
structure Outcome where
  code : Nat
  stdout : String := ""
  stderr : String := ""
deriving DecidableEq, Repr

namespace CommandM

variable {m : Type → Type} [Monad m]

/-- Prints a line. -/
def printLine (line : String) : CommandM m Unit := modify (· ++ line ++ "\n")

/-- Fails with an error that is made from the cause. -/
def orFail {α ε : Type} (error : ε → CommandError) : Except ε α → CommandM m α
  | .ok value => pure value
  | .error cause => throw (error cause)

/-- A step on files. -/
def onFiles {α : Type} (step : m α) : CommandM m α := ExceptT.lift (StateT.lift step)

/-- Runs a command. -/
def outcome (command : CommandM m Unit) : m Outcome := do
  match ← command.run.run "" with
  | (.ok (), stdout) => return { code := 0, stdout }
  | (.error e, stdout) => return { code := 1, stdout, stderr := s!"Error: {e.message}\n" }

end CommandM

/-! ## Configuration files -/

/-- Reads a configuration text. Files named as JSON are JSON, all others are YAML. -/
def Configuration.ofText (path source : String) : Except CommandError Configuration :=
  let (document?, invalid) :=
    if Path.hasExtension path "json" then (Document.ofJson? source, CommandError.invalidJson path)
    else (Document.ofYaml? source, CommandError.invalidYaml path)
  match document? with
  | none => .error invalid
  | some document =>
    match Configuration.decode document with
    | .ok configuration => .ok configuration
    | .error cause => .error (.invalidConfiguration path cause)

/-- Loads a configuration file; without one, everything is as usual. -/
def Configuration.load {m : Type → Type} [Monad m] [FileAccess m] :
    Option String → CommandM m Configuration
  | none => pure {}
  | some path => do
    if (← CommandM.onFiles (FileAccess.kind? path)).isNone then throw (.notFound path)
    let source ← CommandM.orFail (.unreadable path) (← CommandM.onFiles (FileAccess.read path))
    CommandM.orFail id (Configuration.ofText path source)

/-- The topology of the configured device. -/
def Configuration.topology {m : Type → Type} [Monad m] (c : Configuration) : CommandM m Topology :=
  CommandM.orFail .invalidTopology c.setup.device.build

end QubitRouting
