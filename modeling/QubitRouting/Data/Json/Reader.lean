import QubitRouting.Data.Json.Token

/-!
# Reading JSON

A document is nested at most 127 deep.
-/

set_option autoImplicit false

namespace QubitRouting.Json

/-- Lists and records may not stand inside this many others. -/
def maxDepth : Nat := 127

mutual

/-- Reads a value; `depth` is how much deeper it may be nested. -/
def value (depth : Nat) (ts : List Token) : Option (Parsed Document ts) :=
  match ts with
  | .scalar v :: rest => some (.one v _ rest)
  | .openList :: .closeList :: rest =>
    if depth = 0 then none else some ((Parsed.one (.list []) _ rest).behind _)
  | .openList :: rest => do
    if depth = 0 then none
    let p ← items (depth - 1) rest
    return (p.map .list).behind _
  | .openRecord :: .closeRecord :: rest =>
    if depth = 0 then none else some ((Parsed.one (.record []) _ rest).behind _)
  | .openRecord :: rest => do
    if depth = 0 then none
    let p ← fields (depth - 1) rest
    return (p.map .ofFields).behind _
  | _ => none
termination_by 3 * ts.length + 0

/-- Reads the values of a list up to its closing bracket. -/
def items (depth : Nat) (ts : List Token) : Option (Parsed (List Document) ts) := do
  let first ← value depth ts
  have := first.shorter
  match hr : first.rest with
  | .closeList :: rest =>
    return ⟨[first.value], rest, by rw [hr, List.length_cons] at this; omega⟩
  | .comma :: rest =>
    have : rest.length < ts.length := by rw [hr, List.length_cons] at this; omega
    let more ← items depth rest
    return ⟨first.value :: more.value, more.rest, Nat.lt_trans more.shorter this⟩
  | _ => none
termination_by 3 * ts.length + 1

/-- Reads the fields of a record up to its closing brace. -/
def fields (depth : Nat) (ts : List Token) : Option (Parsed (List (String × Document)) ts) :=
  match ts with
  | .scalar (.text name) :: .colon :: ts => do
    let first ← value depth ts
    have := first.shorter
    match hr : first.rest with
    | .closeRecord :: rest =>
      return ⟨[(name, first.value)], rest, by
        rw [hr, List.length_cons] at this
        simp only [List.length_cons]
        omega⟩
    | .comma :: rest =>
      have h : rest.length < ts.length := by rw [hr, List.length_cons] at this; omega
      let more ← fields depth rest
      return ⟨(name, first.value) :: more.value, more.rest, by
        have := more.shorter
        simp only [List.length_cons]
        omega⟩
    | _ => none
  | _ => none
termination_by 3 * ts.length + 1

end

end QubitRouting.Json

namespace QubitRouting.Document

/-- Reads a JSON text; nothing may follow the value. -/
def ofJson? (source : String) : Option Document := do
  let ts ← Json.tokens? source.toList
  let p ← Json.value Json.maxDepth ts
  if p.rest.isEmpty then some p.value else none

end QubitRouting.Document
