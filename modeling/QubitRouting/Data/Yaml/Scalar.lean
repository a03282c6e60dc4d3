import QubitRouting.Data.Document
import QubitRouting.Data.Yaml.Tag
import QubitRouting.Numeral.Binary64

/-!
# Values of YAML scalars

A plain scalar is nothing, a truth value or a number if it is written like one, and a text
otherwise. Any other scalar is a text. A tag can say that a scalar is of one kind; then it must be
written like it.
-/

set_option autoImplicit false

namespace QubitRouting.Yaml

/-! ## Words -/

def isNull (text : String) : Bool := ["null", "Null", "NULL", "~"].contains text

def bool? (text : String) : Option Bool :=
  if ["true", "True", "TRUE"].contains text then some true
  else if ["false", "False", "FALSE"].contains text then some false
  else none

/-! ## Integers -/

/-- Whether digits have a superfluous zero in front. Such a scalar is a text. -/
def isPadded (cs : List Char) : Bool :=
  match cs with
  | '0' :: c :: cs => (c :: cs).all Char.isDigit
  | _ => false

/-- An unsigned integer: decimal, or in radix 16, 8 or 2 with a mark in front. -/
def unsigned? : List Char → Option Nat
  | '0' :: 'x' :: cs => Radix.ofDigits? 16 cs
  | '0' :: 'o' :: cs => Radix.ofDigits? 8 cs
  | '0' :: 'b' :: cs => Radix.ofDigits? 2 cs
  | cs => if isPadded cs then none else Radix.ofDigits? 10 cs

/-- The integer that a scalar writes, with an optional sign. One that takes more than 128 bits is
none. -/
def integer? (text : String) : Option Int := do
  let n : Int ←
    match text.toList with
    | '-' :: cs => (unsigned? cs).map fun n => -(n : Int)
    | '+' :: cs => (unsigned? cs).map fun n => (n : Int)
    | cs => (unsigned? cs).map fun n => (n : Int)
  if -(Nat.pow 2 127 : Int) ≤ n ∧ n < Nat.pow 2 128 then some n else none

/-- An integer as a document, if it takes at most 64 bits. -/
def integerDocument? (n : Int) : Option Document :=
  if -(Nat.pow 2 63 : Int) ≤ n ∧ n < Nat.pow 2 64 then some (.integer n) else none

/-! ## Reals -/

/-- Whether a text is empty or an exponent. -/
def isScale : List Char → Bool
  | [] => true
  | mark :: cs =>
    let digits :=
      match cs with
      | '+' :: ds => ds
      | '-' :: ds => ds
      | ds => ds
    (mark = 'e' || mark = 'E') && !digits.isEmpty && digits.all Char.isDigit

/-- Whether a text is digits with an optional point, with at least one digit on either side of it,
and an optional exponent. -/
def isDecimal (cs : List Char) : Bool :=
  let whole := cs.takeWhile Char.isDigit
  match cs.dropWhile Char.isDigit with
  | '.' :: rest =>
    !(whole.isEmpty && (rest.takeWhile Char.isDigit).isEmpty) &&
      isScale (rest.dropWhile Char.isDigit)
  | rest => !whole.isEmpty && isScale rest

/-- A text without its sign. -/
def unsignedPart : List Char → List Char
  | '+' :: rest => rest
  | '-' :: rest => rest
  | rest => rest

/-- The spellings of infinities and of no number. -/
def unrepresentable : List String :=
  [".inf", ".Inf", ".INF", "+.inf", "+.Inf", "+.INF", "-.inf", "-.Inf", "-.INF",
    ".nan", ".NaN", ".NAN"]

/-- The real that a scalar writes, if it is not too large for double precision. Infinities are
nothing, since no document holds them. -/
def real? (text : String) : Option Document :=
  let body := unsignedPart text.toList
  if unrepresentable.contains text then some .null
  else if isDecimal body && Binary64.ofDecimal (Decimal.ofText body) != .infinite then
    some (.real text)
  else none

/-! ## Scalars -/

/-- The value of a plain scalar. -/
def plainValue? (text : String) : Option Document :=
  if text = "" || isNull text then some .null
  else
    match bool? text, integer? text with
    | some value, _ => some (.bool value)
    | none, some n => integerDocument? n
    | none, none =>
      if isPadded (unsignedPart text.toList) then some (.text text)
      else some ((real? text).getD (.text text))

/-- The value of a scalar. -/
def scalarValue? (tag : Tag) (plain : Bool) (text : String) : Option Document :=
  match tag with
  | .absent => if plain then plainValue? text else some (.text text)
  | .bool => (bool? text).map .bool
  | .integer => do integerDocument? (← integer? text)
  | .real => real? text
  | .null => if isNull text then some .null else none
  | .foreign => none
  | .other => some (.text text)

end QubitRouting.Yaml
