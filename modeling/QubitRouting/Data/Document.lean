/-!
# Documents

The structured values that configuration files hold and reports are made of. The fields of a record
have distinct names; a name that is given twice keeps the last value.
-/

set_option autoImplicit false

namespace QubitRouting

/-- A structured value. A number that is not written as an integer keeps its text only: no setting
is one, and reports have none. -/
inductive Document where
  | null
  | bool (value : Bool)
  | integer (value : Int)
  | real (text : String)
  | text (value : String)
  | list (items : List Document)
  | record (fields : List (String × Document))
deriving Repr, Inhabited

namespace Document

/-- Sets a field; a field of that name is replaced where it stands. -/
def setField (name : String) (value : Document) :
    List (String × Document) → List (String × Document)
  | [] => [(name, value)]
  | (n, v) :: rest => if n = name then (name, value) :: rest else (n, v) :: setField name value rest

/-- A record of these fields, the last value winning for each name. -/
def ofFields (fields : List (String × Document)) : Document :=
  record (fields.foldl (fun acc (name, value) => setField name value acc) [])

/-- The value of a field. -/
def field? (name : String) (fields : List (String × Document)) : Option Document :=
  (fields.find? (·.1 = name)).map (·.2)

/-- A natural number as a document. -/
def nat (n : Nat) : Document := .integer n

/-- A list of natural numbers. -/
def nats (ns : List Nat) : Document := .list (ns.map nat)

end Document

end QubitRouting
