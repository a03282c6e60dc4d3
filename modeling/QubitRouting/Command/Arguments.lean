import QubitRouting.Command.MapFiles

/-!
# Command line arguments

An option is given by its long name, as `--input x` or `--input=x`, or by its letter, as `-i x`,
`-ix` or `-i=x`. Letters of options without a value can be written together. No option with a value
may be given twice.
-/

set_option autoImplicit false

namespace QubitRouting

/-- What the arguments ask for. -/
inductive Command where
  | map (options : MapOptions)
  | topology (configuration? : Option String)
  | version
  | programVersion
  /-- Help, on one subcommand or on all. -/
  | help (subcommand? : Option String)
deriving DecidableEq, Repr

/-- What ends the reading of arguments before all of them are read. -/
inductive Interrupt where
  | usage
  | help
  | version
deriving DecidableEq, Repr

/-- An option that takes a value. -/
structure OptionSpec where
  name : String
  letter? : Option Char
  accepts : String → Bool := fun _ => true

namespace Arguments

/-- The values of the options that were given. -/
abbrev Values := List (String × String)

/-- Reading goes on with these values, after the next argument is taken as the value of an option if
there is one that waits for it. -/
structure Progress where
  values : Values := []
  waiting : Option OptionSpec := none

def setValue (values : Values) (spec : OptionSpec) (value : String) : Except Interrupt Values :=
  if (values.lookup spec.name).isSome || !spec.accepts value then .error .usage
  else .ok ((spec.name, value) :: values)

/-- Whether an argument is an option. A single dash is not one. -/
def isOption (arg : String) : Bool :=
  match arg.toList with
  | '-' :: _ :: _ => true
  | _ => false

/-- Reads the text behind two dashes. -/
def long (specs : List OptionSpec) (hasVersion : Bool) (values : Values) (text : List Char) :
    Except Interrupt Progress :=
  let name := String.ofList (text.takeWhile (· ≠ '='))
  let value? :=
    match text.dropWhile (· ≠ '=') with
    | '=' :: value => some (String.ofList value)
    | _ => none
  match specs.find? (·.name = name), value? with
  | some spec, some value => do return { values := ← setValue values spec value }
  | some spec, none => .ok { values, waiting := some spec }
  | none, some _ => .error .usage
  | none, none =>
    match name with
    | "verbose" => .ok { values }
    | "help" => .error .help
    | "version" => .error (if hasVersion then .version else .usage)
    | _ => .error .usage

/-- Reads the letters behind one dash. -/
def letters (specs : List OptionSpec) (hasVersion : Bool) (values : Values) :
    List Char → Except Interrupt Progress
  | [] => .ok { values }
  | c :: cs =>
    match specs.find? (·.letter? = some c) with
    | some spec =>
      match cs with
      | [] => .ok { values, waiting := some spec }
      | '=' :: value => do return { values := ← setValue values spec (String.ofList value) }
      | value => do return { values := ← setValue values spec (String.ofList value) }
    | none =>
      match c with
      | 'v' => letters specs hasVersion values cs
      | 'h' => .error .help
      | 'V' => .error (if hasVersion then .version else .usage)
      | _ => .error .usage

/-- Reads an option. -/
def option (specs : List OptionSpec) (hasVersion : Bool) (values : Values) (arg : String) :
    Except Interrupt Progress :=
  match arg.toList with
  | '-' :: '-' :: text => long specs hasVersion values text
  | '-' :: text => letters specs hasVersion values text
  | _ => .error .usage

/-- Reads the arguments of a subcommand: options only. Two dashes end them. -/
def options (specs : List OptionSpec) : Progress → List String → Except Interrupt Values
  | ⟨values, none⟩, [] => .ok values
  | ⟨_, some _⟩, [] => .error .usage
  | ⟨values, some spec⟩, arg :: args => do
    if isOption arg then .error .usage
    else options specs ⟨← setValue values spec arg, none⟩ args
  | ⟨values, none⟩, arg :: args =>
    if arg = "--" then if args.isEmpty then .ok values else .error .usage
    else do options specs (← option specs false values arg) args

/-! ## Subcommands -/

def topologySpec : OptionSpec := { name := "topology", letter? := some 't' }

def mapSpecs : List OptionSpec :=
  [{ name := "input", letter? := some 'i' },
    { name := "output", letter? := some 'o' },
    topologySpec,
    { name := "mover", letter? := none, accepts := fun text => (MoverStrategy.choose text).isOk },
    { name := "meeting", letter? := none,
      accepts := fun text => (MeetingStrategy.choose text).isOk },
    { name := "report", letter? := some 'r' }]

/-- Where the configuration is, if no option says so. -/
def configurationIn (values : Values) (default? : Option String) : Option String :=
  (values.lookup "topology").or default?

def mapOptions? (values : Values) (default? : Option String) : Option MapOptions := do
  return {
    input := ← values.lookup "input"
    output := ← values.lookup "output"
    configuration? := configurationIn values default?
    mover? := (values.lookup "mover").bind fun text => (MoverStrategy.choose text).toOption
    meeting? := (values.lookup "meeting").bind fun text => (MeetingStrategy.choose text).toOption
    report := (values.lookup "report").getD "table" }

def subcommands : List String := ["map", "topology", "version", "help"]

/-- Reads the arguments of a subcommand. -/
def subcommand (name : String) (args : List String) (default? : Option String) :
    Except Interrupt Command :=
  match name with
  | "map" => do
    match mapOptions? (← options mapSpecs {} args) default? with
    | some o => .ok (.map o)
    | none => .error .usage
  | "topology" => do
    return .topology (configurationIn (← options [topologySpec] {} args) default?)
  | "version" => do
    let _ ← options [] {} args
    return .version
  | "help" =>
    match args with
    | [] => .ok (.help none)
    | [name] => if name ∈ subcommands then .ok (.help (some name)) else .error .usage
    | _ => .error .usage
  | _ => .error .usage

/-- Reads all arguments: options that hold for every subcommand, and a subcommand. -/
def command (default? : Option String) : List String → Except Interrupt Command
  | [] => .error .usage
  | arg :: args =>
    if arg = "--" then .error .usage
    else if isOption arg then do
      let _ ← option [] true [] arg
      command default? args
    else
      match subcommand arg args default? with
      | .error .help => .ok (.help (some arg))
      | result => result

end Arguments

/-- The command that the arguments ask for, if they can be understood. `default?` is the
configuration file that is used if the arguments name none. -/
def Command.ofArguments? (args : List String) (default? : Option String) : Option Command :=
  match Arguments.command default? args with
  | .ok c => some c
  | .error .help => some (.help none)
  | .error .version => some .programVersion
  | .error .usage => none

end QubitRouting
