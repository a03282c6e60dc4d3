import QubitRouting.Data.Yaml.Scalar

/-!
# YAML nodes

What a source describes, with references still in place. A document is made from it by putting for
each reference what it refers to.
-/

set_option autoImplicit false

namespace QubitRouting.Yaml

/-- What stands before a node: the number of its anchor, and its tag. -/
structure Label where
  anchor : Option Nat := none
  tag : Tag := .absent
deriving DecidableEq, Repr

inductive Node where
  | reference (number : Nat)
  | scalar (label : Label) (plain : Bool) (text : String)
  | list (label : Label) (items : List Node)
  | record (label : Label) (fields : List (Node × Node))
deriving Repr

namespace Node

/-- A value that is not written. -/
def empty : Node := scalar {} true ""

/-- The label of a node that is not a reference. -/
def label? : Node → Option Label
  | reference _ => none
  | scalar label _ _ => some label
  | list label _ => some label
  | record label _ => some label

/-! ## Nodes inside nodes -/

mutual

/-- A node and all nodes in it, in the order in which they start. -/
def all : Node → List Node
  | reference number => [reference number]
  | scalar label plain text => [scalar label plain text]
  | list label items => list label items :: allItems items
  | record label fields => record label fields :: allFields fields

def allItems : List Node → List Node
  | [] => []
  | n :: ns => all n ++ allItems ns

def allFields : List (Node × Node) → List Node
  | [] => []
  | (name, value) :: fields => all name ++ all value ++ allFields fields

end

/-- How many marks a node is written with by itself: a list or record has one at each end. -/
def weight : Node → Nat
  | reference _ => 1
  | scalar _ _ _ => 1
  | list _ _ => 2
  | record _ _ => 2

/-! ## References -/

/-- Nodes by the numbers of their anchors. The last of several with one number counts. -/
def anchored (root : Node) (number : Nat) : Option Node :=
  root.all.reverse.find? fun n => n.label?.any (·.anchor = some number)

/-- A computation that may use so many references more. -/
abbrev Resolve := StateT Nat Option

/-- What a node refers to, or the node itself. -/
def follow (target? : Nat → Option Node) : Node → Resolve Node
  | reference number => do
    let left ← get
    if left = 0 then failure
    set (left - 1)
    liftM (target? number)
  | n => pure n

/-- The name of a field, which is a scalar. Its tag does not matter. -/
def fieldName (target? : Nat → Option Node) (n : Node) : Resolve String := do
  match ← follow target? n with
  | scalar _ _ text => pure text
  | _ => failure

/-- Whether documents can have a list or a record with this label. -/
def isKnown (label : Label) : Bool := label.tag != .foreign

/-- The document that a node describes, nested at most `depth` deep. -/
def resolve (target? : Nat → Option Node) : Nat → Node → Resolve Document
  | 0, n => do
    match ← follow target? n with
    | scalar label plain text => liftM (scalarValue? label.tag plain text)
    | _ => failure
  | depth + 1, n => do
    match ← follow target? n with
    | reference _ => failure
    | scalar label plain text => liftM (scalarValue? label.tag plain text)
    | list label items =>
      if !isKnown label then failure
      return .list (← items.mapM (resolve target? depth))
    | record label fields =>
      if !isKnown label then failure
      return .ofFields (← fields.mapM fun (name, value) => do
        return (← fieldName target? name, ← resolve target? depth value))

/-- Lists and records may not stand inside this many others. -/
def maxDepth : Nat := 128

/-- How many marks a node is written with. -/
def size (root : Node) : Nat := root.all.foldl (fun n node => n + node.weight) 0

/-- The document that a node describes. References may be used a hundred times as often as the node
has marks. -/
def document? (root : Node) : Option Document := do
  let (document, _) ← (resolve root.anchored maxDepth root).run (100 * root.size)
  return document

end Node

end QubitRouting.Yaml
