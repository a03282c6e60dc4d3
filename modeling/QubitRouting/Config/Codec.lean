import QubitRouting.Config.Device
import QubitRouting.Data.Decode
import QubitRouting.Mapping.Pass

/-!
# Settings as documents

How settings are written to documents and read from them. Settings may be given in part; what is
missing keeps its usual value.
-/

set_option autoImplicit false

namespace QubitRouting

/-- How circuits are mapped, and to which device. -/
structure Setup where
  device : DeviceSpec := .heavyHex65
  mapper : MapperSettings := {}
deriving DecidableEq, Repr

/-- What a configuration file says. -/
structure Configuration where
  setup : Setup := {}
  costs : CostModel := {}
deriving DecidableEq, Repr

instance : Inhabited Configuration := ⟨{}⟩

open Document

/-! ## Strategies -/

namespace MoverStrategy

def all : List MoverStrategy := [distanceToCenter, lessConnected]

def ofName? (name : String) : Option MoverStrategy := all.find? (·.name = name)

end MoverStrategy

namespace MeetingStrategy

def all : List MeetingStrategy := [truncate, edgeScore]

def ofName? (name : String) : Option MeetingStrategy := all.find? (·.name = name)

end MeetingStrategy

/-- The name of a choice: a text, or a record with the name as its only field and nothing in it.
Inside a configuration file an empty record counts as nothing. -/
def choice? (embedded : Bool) : Document → Option String
  | .text name => some name
  | .record [(name, .null)] => some name
  | .record [(name, .record [])] => if embedded then some name else none
  | _ => none

def MoverStrategy.decode? (embedded : Bool) (d : Document) : Option MoverStrategy :=
  (choice? embedded d).bind ofName?

def MoverStrategy.encode (s : MoverStrategy) : Document := .text s.name

def MeetingStrategy.decode? (embedded : Bool) (d : Document) : Option MeetingStrategy :=
  (choice? embedded d).bind ofName?

def MeetingStrategy.encode (s : MeetingStrategy) : Document := .text s.name

/-! ## Placement options, costs and metrics -/

def PlacementOptions.decode? (d : Document) : Option PlacementOptions := do
  match ← d.fields? ["allow_isolated"] with
  | [allowIsolated] => return { allowIsolated := ← orElse? true bool? allowIsolated }
  | _ => none

def PlacementOptions.encode (o : PlacementOptions) : Document :=
  .record [("allow_isolated", .bool o.allowIsolated)]

def CostModel.decode? (d : Document) : Option CostModel := do
  let usual : CostModel := {}
  match ← d.fields? ["rz", "x", "sx", "single_qubit", "two_qubit", "swap"] with
  | [rz, x, sx, singleQubit, twoQubit, swap] =>
    return {
      rz := ← orElse? usual.rz nat64? rz
      x := ← orElse? usual.x nat64? x
      sx := ← orElse? usual.sx nat64? sx
      singleQubit := ← orElse? usual.singleQubit nat64? singleQubit
      twoQubit := ← orElse? usual.twoQubit nat64? twoQubit
      swap := ← orElse? usual.swap nat64? swap }
  | _ => none

def CostModel.encode (c : CostModel) : Document :=
  .record [("rz", .nat c.rz), ("x", .nat c.x), ("sx", .nat c.sx),
    ("single_qubit", .nat c.singleQubit), ("two_qubit", .nat c.twoQubit), ("swap", .nat c.swap)]

def Metrics.decode? (d : Document) : Option Metrics := do
  match ← d.fields? ["logical_qubits", "two_qubit_ops", "swaps"] with
  | [logicalQubits, twoQubitOps, swaps] =>
    return {
      logicalQubits := ← required? nat64? logicalQubits
      twoQubitOps := ← required? nat64? twoQubitOps
      swaps := ← required? nat64? swaps }
  | _ => none

def Metrics.fields (m : Metrics) : List (String × Document) :=
  [("logical_qubits", .nat m.logicalQubits), ("two_qubit_ops", .nat m.twoQubitOps),
    ("swaps", .nat m.swaps)]

def Metrics.encode (m : Metrics) : Document := .record m.fields

def Report.fields (r : Report) : List (String × Document) :=
  r.metrics.fields ++ [("cost", .nat r.cost.toNat)]

def Report.encode (r : Report) : Document := .record r.fields

/-! ## Devices -/

namespace DeviceSpec

/-- The kinds of devices. -/
def kinds : List String := ["heavy_hex_65", "linear", "ring", "grid", "star", "full", "custom"]

/-- The kind of a device: its name or, inside a configuration file, its number among the kinds. -/
def kind? (embedded : Bool) : Document → Option String
  | .text name => some name
  | .integer (.ofNat i) => if embedded then kinds[i]? else none
  | _ => none

/-- Reads the fields that belong to a kind. -/
def decodeKind? (kind : String) (d : Document) : Option DeviceSpec :=
  let sized (make : Nat → DeviceSpec) : Option DeviceSpec := do
    match ← d.fields? ["qubits"] with
    | [qubits] => return make (← required? nat32? qubits)
    | _ => none
  match kind with
  | "heavy_hex_65" => (d.fields? []).map fun _ => heavyHex65
  | "linear" => sized linear
  | "ring" => sized ring
  | "star" => sized star
  | "full" => sized full
  | "grid" => do
    match ← d.fields? ["rows", "cols"] with
    | [rows, cols] => return grid (← required? nat32? rows) (← required? nat32? cols)
    | _ => none
  | "custom" => do
    match ← d.fields? ["qubits", "edges"] with
    | [qubits, edges] =>
      return custom (← orElse? none (nullable? (list? nat32?)) qubits)
        (← required? (list? pair32?) edges)
    | _ => none
  | _ => none

/-- Reads a device: a record with its kind, or a list that begins with it. -/
def decode? (embedded : Bool) : Document → Option DeviceSpec
  | .record fields => do
    let kind ← kind? embedded (← field? "kind" fields)
    decodeKind? kind (.record fields)
  | .list (tag :: rest) => do
    let kind ← kind? embedded tag
    decodeKind? kind (.list rest)
  | _ => none

def encode : DeviceSpec → Document
  | heavyHex65 => .record [("kind", .text "heavy_hex_65")]
  | linear n => .record [("kind", .text "linear"), ("qubits", .nat n)]
  | ring n => .record [("kind", .text "ring"), ("qubits", .nat n)]
  | grid rows cols => .record [("kind", .text "grid"), ("rows", .nat rows), ("cols", .nat cols)]
  | star n => .record [("kind", .text "star"), ("qubits", .nat n)]
  | full n => .record [("kind", .text "full"), ("qubits", .nat n)]
  | custom qubits edges =>
    .record [("kind", .text "custom"), ("qubits", (qubits.map .nats).getD .null),
      ("edges", .list (edges.map fun (a, b) => .nats [a, b]))]

end DeviceSpec

/-! ## Setups -/

namespace Setup

/-- The names of the settings. -/
def fieldNames : List String := ["topology", "placement", "mover", "meeting"]

/-- Reads a setup from its fields. -/
def decodeFields? (embedded : Bool) : List (Option Document) → Option Setup
  | [topology, placement, mover, meeting] => do
    let usual : Setup := {}
    let device ← orElse? usual.device (DeviceSpec.decode? embedded) topology
    let placement ← orElse? usual.mapper.placement PlacementOptions.decode? placement
    let mover ← orElse? usual.mapper.router.mover (MoverStrategy.decode? embedded) mover
    let meeting ← orElse? usual.mapper.router.meeting (MeetingStrategy.decode? embedded) meeting
    return { device, mapper := { placement, router := { mover, meeting } } }
  | _ => none

def decode? (d : Document) : Option Setup := do
  decodeFields? false (← d.fields? fieldNames)

def fields (s : Setup) : List (String × Document) :=
  [("topology", s.device.encode), ("placement", s.mapper.placement.encode),
    ("mover", s.mapper.router.mover.encode), ("meeting", s.mapper.router.meeting.encode)]

def encode (s : Setup) : Document := .record s.fields

end Setup

/-! ## Configurations -/

/-- Why a document is no configuration. -/
inductive ConfigError where
  | notARecord
  | unknownField (name : String)
  /-- A setting does not have the form that it should have. -/
  | misfit
deriving DecidableEq, Repr

namespace Configuration

/-- The names of what a configuration may set. -/
def fieldNames : List String := Setup.fieldNames ++ ["costs"]

/-- The smallest of the names. -/
def smallest? (names : List String) : Option String :=
  match names with
  | [] => none
  | n :: rest => some (rest.foldl (fun m n => if n < m then n else m) n)

/-- Reads a configuration. It is nothing at all, a device on its own, or a record of settings; a
device is told by its kind. -/
def decode : Document → Except ConfigError Configuration
  | .null => .ok {}
  | .record fields =>
    if (field? "kind" fields).isSome then
      match DeviceSpec.decode? false (.record fields) with
      | some device => .ok { setup := { device } }
      | none => .error .misfit
    else
      match smallest? ((fields.map (·.1)).filter (· ∉ fieldNames)) with
      | some name => .error (.unknownField name)
      | none =>
        let read : Option Configuration := do
          let setup ← Setup.decodeFields? true (Setup.fieldNames.map (field? · fields))
          let costs ← orElse? {} CostModel.decode? (field? "costs" fields)
          return { setup, costs }
        match read with
        | some c => .ok c
        | none => .error .misfit
  | _ => .error .notARecord

end Configuration

namespace ConfigError

/-- The message, where the error has a wording of its own. -/
def message? : ConfigError → Option String
  | notARecord => some "expected a mapping at the top level"
  | unknownField name =>
    let known := String.intercalate ", " Configuration.fieldNames
    some s!"unknown field '{name}', expected one of: {known}"
  | misfit => none

end ConfigError

end QubitRouting
