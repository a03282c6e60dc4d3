import QubitRouting.Data.Document

/-!
# Reading values out of documents

Small readers from which the readers of settings are made. A reader answers `none` if the document
does not fit.
-/

set_option autoImplicit false

namespace QubitRouting.Document

/-- A natural number below `limit`. -/
def natBelow? (limit : Nat) : Document → Option Nat
  | .integer n => if 0 ≤ n ∧ n < limit then some n.toNat else none
  | _ => none

/-- A number of 32 bits. -/
def nat32? : Document → Option Nat := natBelow? (Nat.pow 2 32)

/-- A number of 64 bits. -/
def nat64? : Document → Option Nat := natBelow? (Nat.pow 2 64)

def bool? : Document → Option Bool
  | .bool b => some b
  | _ => none

/-- A list of values that `read` reads. -/
def list? {α : Type} (read : Document → Option α) : Document → Option (List α)
  | .list items => items.mapM read
  | _ => none

/-- Nothing, or a value that `read` reads. -/
def nullable? {α : Type} (read : Document → Option α) : Document → Option (Option α)
  | .null => some none
  | d => (read d).map some

/-- Two numbers of 32 bits. -/
def pair32? : Document → Option (Nat × Nat)
  | .list [a, b] => do return (← nat32? a, ← nat32? b)
  | _ => none

/-- The fields of a structured value in the order of `names`: it is either a record, in which other
fields are ignored, or a list of the values, which may end early but not be longer. -/
def fields? (names : List String) : Document → Option (List (Option Document))
  | .record fields => some (names.map (field? · fields))
  | .list items =>
    if names.length < items.length then none
    else some (items.map some ++ List.replicate (names.length - items.length) none)
  | _ => none

/-- A field that must be there. -/
def required? {α : Type} (read : Document → Option α) (d : Option Document) : Option α :=
  d.bind read

/-- A field that may be missing. -/
def orElse? {α : Type} (default : α) (read : Document → Option α) : Option Document → Option α
  | some d => read d
  | none => some default

end QubitRouting.Document
