import QubitRouting.Data.Yaml.Node
import QubitRouting.Data.Yaml.Token

/-!
# Reading YAML

Nodes are read from tokens. Values that are not written are empty.
-/

set_option autoImplicit false

namespace QubitRouting.Yaml

/-! ## Labels -/

/-- What handles of tags stand for. -/
abbrev Handles := List (String × TagText)

namespace Handles

/-- The handles that need no directive. -/
def standard : Handles :=
  [("!", .ofString "!"), ("!!", .ofString "tag:yaml.org,2002:")]

/-- The full text of a tag. -/
def expand? (handles : Handles) (t : WrittenTag) : Option TagText :=
  if t.handle = "" then some t.rest
  else (handles.lookup t.handle).map (· ++ t.rest)

end Handles

/-- The anchor and the full tag before a node. -/
structure Properties where
  anchor : Option Nat := none
  tag : Option TagText := none
deriving DecidableEq, Repr

namespace Properties

def isEmpty (p : Properties) : Bool := p.anchor.isNone && p.tag.isNone

/-- The label of a node with these properties. -/
def label (p : Properties) : Label := ⟨p.anchor, p.tag.elim .absent .ofText⟩

/-- The label of a scalar that is written out, to which a single exclamation mark says nothing. -/
def scalarLabel (p : Properties) : Label :=
  if p.tag = some (.ofString "!") then ⟨p.anchor, .absent⟩ else p.label

end Properties

/-- Reads an anchor and a tag, in either order; both may be missing. -/
def properties (handles : Handles) : (ts : List Token) → Option (Passed Properties ts)
  | .anchor n :: .tag t :: ts => do
    return .ofParsed ((Parsed.one ⟨some n, ← handles.expand? t⟩ _ ts).behind _)
  | .tag t :: .anchor n :: ts => do
    return .ofParsed ((Parsed.one ⟨some n, ← handles.expand? t⟩ _ ts).behind _)
  | .anchor n :: ts => some (.ofParsed (.one ⟨some n, none⟩ _ ts))
  | .tag t :: ts => do return .ofParsed (.one ⟨none, ← handles.expand? t⟩ _ ts)
  | ts => some (.nothing {} ts)

/-! ## Which tokens follow -/

/-- Whether the next token is one of these. -/
def nextIn (options : List Token) (ts : List Token) : Bool := ts.head?.any options.contains

/-- Whether a value that is written out follows. -/
def startsContent (block indentless : Bool) : List Token → Bool
  | .scalar _ _ :: _ => true
  | .openList :: _ => true
  | .openRecord :: _ => true
  | .openBlockList :: _ => block
  | .openBlockRecord :: _ => block
  | .dash :: _ => indentless
  | _ => false

/-! ## Nodes -/

mutual

/-- Reads a node. Block lists and records are allowed only if `block` says so, and a list whose
dashes are not indented only if `indentless` does. -/
def node (handles : Handles) (depth : Nat) (block indentless : Bool) (ts : List Token) :
    Option (Parsed Node ts) :=
  match ts with
  | .reference n :: ts => some (.one (.reference n) _ ts)
  | ts => do
    let p ← properties handles ts
    have := p.notLonger
    if startsContent block indentless p.rest then
      let c ← content handles depth p.value p.rest
      return ⟨c.value, c.rest, Nat.lt_of_lt_of_le c.shorter this⟩
    else if h : p.rest.length < ts.length then
      return ⟨.scalar p.value.label true "", p.rest, h⟩
    else none
termination_by 8 * ts.length + 2

/-- Reads a node behind its properties. -/
def content (handles : Handles) (depth : Nat) (p : Properties) (ts : List Token) :
    Option (Parsed Node ts) :=
  match ts with
  | .scalar plain text :: ts => some (.one (.scalar p.scalarLabel plain text) _ ts)
  | .openList :: ts => do
    if depth = 0 then none
    return ((← flowItems handles (depth - 1) ts).map (.list p.label)).behind _
  | .openRecord :: ts => do
    if depth = 0 then none
    return ((← flowFields handles (depth - 1) ts).map (.record p.label)).behind _
  | .openBlockList :: ts => do
    if depth = 0 then none
    return ((← blockItems handles (depth - 1) ts).map (.list p.label)).behind _
  | .openBlockRecord :: ts => do
    if depth = 0 then none
    return ((← blockFields handles (depth - 1) ts).map (.record p.label)).behind _
  | .dash :: ts => do
    if depth = 0 then none
    return (← dashItems handles (depth - 1) (.dash :: ts)).map (.list p.label)
  | _ => none
termination_by 8 * ts.length + 1

/-- Reads a node, or nothing before one of these tokens. -/
def nodeOr (before : List Token) (handles : Handles) (depth : Nat) (block indentless : Bool)
    (ts : List Token) : Option (Passed Node ts) := do
  if nextIn before ts then return .nothing .empty ts
  else return .ofParsed (← node handles depth block indentless ts)
termination_by 8 * ts.length + 3

/-- Reads the value of a field, which is empty without a colon or before one of these tokens. -/
def fieldValue (before : List Token) (handles : Handles) (depth : Nat) (block : Bool)
    (ts : List Token) : Option (Passed Node ts) :=
  match ts with
  | .value :: ts => do
    return .ofParsed ((← nodeOr before handles depth block block ts).behind _)
  | ts => some (.nothing .empty ts)
termination_by 8 * ts.length

/-- Reads the items of a list in brackets up to the closing one. A comma may stand before it. -/
def flowItems (handles : Handles) (depth : Nat) (ts : List Token) :
    Option (Parsed (List Node) ts) :=
  match ts with
  | .closeList :: ts => some (.one [] _ ts)
  | ts => do
    let first ← flowItem handles depth ts
    have := first.shorter
    match hr : first.rest with
    | .closeList :: rest =>
      return ⟨[first.value], rest, by rw [hr, List.length_cons] at this; omega⟩
    | .comma :: rest =>
      have : rest.length < ts.length := by rw [hr, List.length_cons] at this; omega
      let more ← flowItems handles depth rest
      return ⟨first.value :: more.value, more.rest, Nat.lt_trans more.shorter this⟩
    | _ => none
termination_by 8 * ts.length + 5

/-- Reads an item of a list in brackets. A single field is a record. -/
def flowItem (handles : Handles) (depth : Nat) (ts : List Token) : Option (Parsed Node ts) :=
  match ts with
  | .key :: ts => do
    if depth = 0 then none
    let name ← pairName handles (depth - 1) ts
    have := name.notLonger
    let value ← fieldValue [.comma, .closeList] handles (depth - 1) false name.rest
    return ⟨.record {} [(name.value, value.value)], value.rest, by
      have := value.notLonger
      simp only [List.length_cons]
      omega⟩
  | ts => node handles depth false false ts
termination_by 8 * ts.length + 4

/-- Reads the name of a field that is an item of a list. If it is empty, the token behind it is
dropped. -/
def pairName (handles : Handles) (depth : Nat) (ts : List Token) : Option (Passed Node ts) :=
  match ts with
  | .value :: ts => some (.ofParsed (.one .empty _ ts))
  | .comma :: ts => some (.ofParsed (.one .empty _ ts))
  | .closeList :: ts => some (.ofParsed (.one .empty _ ts))
  | ts => do return .ofParsed (← node handles depth false false ts)
termination_by 8 * ts.length + 3

/-- Reads the fields of a record in braces up to the closing one. A comma may stand before it. -/
def flowFields (handles : Handles) (depth : Nat) (ts : List Token) :
    Option (Parsed (List (Node × Node)) ts) :=
  match ts with
  | .closeRecord :: ts => some (.one [] _ ts)
  | ts => do
    let first ← flowField handles depth ts
    have := first.shorter
    match hr : first.rest with
    | .closeRecord :: rest =>
      return ⟨[first.value], rest, by rw [hr, List.length_cons] at this; omega⟩
    | .comma :: rest =>
      have : rest.length < ts.length := by rw [hr, List.length_cons] at this; omega
      let more ← flowFields handles depth rest
      return ⟨first.value :: more.value, more.rest, Nat.lt_trans more.shorter this⟩
    | _ => none
termination_by 8 * ts.length + 5

/-- Reads a field of a record in braces. A node that is no key has an empty value. -/
def flowField (handles : Handles) (depth : Nat) (ts : List Token) :
    Option (Parsed (Node × Node) ts) :=
  match ts with
  | .key :: ts => do
    let name ← nodeOr [.value, .comma, .closeRecord] handles depth false false ts
    have := name.notLonger
    let value ← fieldValue [.comma, .closeRecord] handles depth false name.rest
    return ⟨(name.value, value.value), value.rest, by
      have := value.notLonger
      simp only [List.length_cons]
      omega⟩
  | ts => do return (← node handles depth false false ts).map fun name => (name, .empty)
termination_by 8 * ts.length + 4

/-- Reads the items of a block list up to its end. -/
def blockItems (handles : Handles) (depth : Nat) (ts : List Token) :
    Option (Parsed (List Node) ts) :=
  match ts with
  | .closeBlock :: ts => some (.one [] _ ts)
  | .dash :: ts => do
    let first ← nodeOr [.dash, .closeBlock] handles depth true false ts
    have := first.notLonger
    let more ← blockItems handles depth first.rest
    return ⟨first.value :: more.value, more.rest, by
      have := more.shorter
      simp only [List.length_cons]
      omega⟩
  | _ => none
termination_by 8 * ts.length

/-- Reads the items of a list whose dashes are in the column of the record that it is in. -/
def dashItems (handles : Handles) (depth : Nat) (ts : List Token) :
    Option (Parsed (List Node) ts) :=
  match ts with
  | .dash :: ts => do
    let first ← nodeOr [.dash, .key, .value, .closeBlock] handles depth true false ts
    have := first.notLonger
    if nextIn [.dash] first.rest then
      let more ← dashItems handles depth first.rest
      return ⟨first.value :: more.value, more.rest, by
        have := more.shorter
        simp only [List.length_cons]
        omega⟩
    else return (first.behind _).map ([·])
  | _ => none
termination_by 8 * ts.length

/-- Reads the fields of a block record up to its end. -/
def blockFields (handles : Handles) (depth : Nat) (ts : List Token) :
    Option (Parsed (List (Node × Node)) ts) :=
  match ts with
  | .closeBlock :: ts => some (.one [] _ ts)
  | .key :: ts => do
    let name ← nodeOr [.key, .value, .closeBlock] handles depth true true ts
    have := name.notLonger
    let value ← fieldValue [.key, .value, .closeBlock] handles depth true name.rest
    have := value.notLonger
    let more ← blockFields handles depth value.rest
    return ⟨(name.value, value.value) :: more.value, more.rest, by
      have := more.shorter
      simp only [List.length_cons]
      omega⟩
  | _ => none
termination_by 8 * ts.length

end

/-! ## Documents -/

/-- Adds what a directive says to the handles. A document has one version, and a handle one
meaning. -/
def Handles.addAll? (handles : Handles) (versioned : Bool) : List Directive → Option Handles
  | [] => some handles
  | .version major minor :: ds =>
    if versioned || major != 1 || (minor != 1 && minor != 2) then none
    else handles.addAll? true ds
  | .shorthand handle start :: ds =>
    if (handles.lookup handle).isSome then none
    else Handles.addAll? ((handle, start) :: handles) versioned ds

/-- The directives at the front, and the tokens behind them. -/
def directives : List Token → List Directive × List Token
  | .directive d :: ts =>
    let (ds, rest) := directives ts
    (d :: ds, rest)
  | ts => ([], ts)

/-- Whether nothing of a document follows. -/
def isDocumentOver : List Token → Bool
  | [] => true
  | .directive _ :: _ => true
  | .documentStart :: _ => true
  | .documentEnd :: _ => true
  | _ => false

/-- Reads the node that a source describes, if it describes only one; none is empty. A source with
directives must have a mark behind them. -/
def root? (ts : List Token) : Option Node := do
  let (ds, rest) := directives ts
  let handles ← Handles.addAll? [] false ds
  let handles := handles ++ Handles.standard
  let (n, rest) ←
    match rest with
    | .documentStart :: rest =>
      if isDocumentOver rest then some (.empty, rest)
      else do
        let p ← node handles Node.maxDepth true false rest
        some (p.value, p.rest)
    | [] => if ds.isEmpty then some (.empty, []) else none
    | rest =>
      if !ds.isEmpty then none
      else do
        let p ← node handles Node.maxDepth true false rest
        some (p.value, p.rest)
  if (rest.dropWhile (· == .documentEnd)).isEmpty then some n else none

end QubitRouting.Yaml

namespace QubitRouting.Document

/-- Reads a YAML text that describes one document; an empty one is nothing. -/
def ofYaml? (source : String) : Option Document := do
  if !source.toList.all Yaml.isPrintable then none
  let root ← Yaml.root? (← Yaml.tokens? {} source.toList)
  root.document?

end QubitRouting.Document
