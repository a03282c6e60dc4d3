import QubitRouting.Data.Json.Number
import QubitRouting.Numeral.Radix
import QubitRouting.Text.Parsed

/-!
# JSON tokens

The lexical level of JSON: strings with their escapes resolved, numbers, the three words, and
punctuation. Blanks between tokens are dropped.
-/

set_option autoImplicit false

namespace QubitRouting.Json

/-- A token; strings, numbers and words are already documents. -/
inductive Token where
  | openList
  | closeList
  | openRecord
  | closeRecord
  | comma
  | colon
  | scalar (value : Document)
deriving Repr

def isBlank (c : Char) : Bool := c = ' ' || c = '\n' || c = '\t' || c = '\r'

/-! ## Strings -/

/-- The code unit that four hexadecimal digits write. -/
def codeUnit? (a b c d : Char) : Option Nat := Radix.ofDigits? 16 [a, b, c, d]

/-- The character that a backslash and this letter stand for. -/
def escape? : Char → Option Char
  | '"' => some '"'
  | '\\' => some '\\'
  | '/' => some '/'
  | 'b' => some '\x08'
  | 'f' => some '\x0c'
  | 'n' => some '\n'
  | 'r' => some '\r'
  | 't' => some '\t'
  | _ => none

def isLeading (unit : Nat) : Bool := 0xD800 ≤ unit && unit < 0xDC00

def isTrailing (unit : Nat) : Bool := 0xDC00 ≤ unit && unit < 0xE000

/-- Reads the rest of a string whose opening quote is taken. A code unit of a pair must stand with
its partner, and control characters must be escaped. -/
def stringRest : (cs : List Char) → Option (Parsed (List Char) cs)
  | [] => none
  | '"' :: cs => some (.one [] '"' cs)
  | '\\' :: 'u' :: a :: b :: c :: d :: '\\' :: 'u' :: a' :: b' :: c' :: d' :: cs => do
    let unit ← codeUnit? a b c d
    if isLeading unit then
      let low ← codeUnit? a' b' c' d'
      if isTrailing low then
        let p ← stringRest cs
        let code := 0x10000 + (unit - 0xD800) * 0x400 + (low - 0xDC00)
        return ⟨Char.ofNat code :: p.value, p.rest, by
          have := p.shorter
          simp only [List.length_cons]
          omega⟩
      else none
    else if isTrailing unit then none
    else
      let p ← stringRest ('\\' :: 'u' :: a' :: b' :: c' :: d' :: cs)
      return ⟨Char.ofNat unit :: p.value, p.rest, by
        have := p.shorter
        simp only [List.length_cons] at this ⊢
        omega⟩
  | '\\' :: 'u' :: a :: b :: c :: d :: cs => do
    let unit ← codeUnit? a b c d
    if isLeading unit || isTrailing unit then none
    else
      let p ← stringRest cs
      return ⟨Char.ofNat unit :: p.value, p.rest, by
        have := p.shorter
        simp only [List.length_cons]
        omega⟩
  | '\\' :: c :: cs => do
    let e ← escape? c
    return (((← stringRest cs).map (e :: ·)).behind c).behind '\\'
  | c :: cs => do
    if c.toNat < 0x20 || c = '\\' then none
    else return ((← stringRest cs).map (c :: ·)).behind c

/-! ## Tokens -/

/-- The document that a bare word or number is. -/
def bare? : List Char → Option Document
  | ['n', 'u', 'l', 'l'] => some .null
  | ['t', 'r', 'u', 'e'] => some (.bool true)
  | ['f', 'a', 'l', 's', 'e'] => some (.bool false)
  | '-' :: cs => number? true cs
  | cs => number? false cs

def punctuation? : Char → Option Token
  | '[' => some .openList
  | ']' => some .closeList
  | '\x7b' => some .openRecord
  | '\x7d' => some .closeRecord
  | ',' => some .comma
  | ':' => some .colon
  | _ => none

/-- The characters of words and numbers. -/
def isBareChar (c : Char) : Bool := c.isAlphanum || c = '.' || c = '+' || c = '-'

/-- The tokens of a text. -/
def tokens? : List Char → Option (List Token)
  | [] => some []
  | c :: cs =>
    if isBlank c then tokens? cs
    else
      match punctuation? c with
      | some t => do return t :: (← tokens? cs)
      | none =>
        if c = '"' then do
          let p ← stringRest cs
          have := p.shorter
          return .scalar (.text (String.ofList p.value)) :: (← tokens? p.rest)
        else do
          let n := (cs.takeWhile isBareChar).length
          let value ← bare? (c :: cs.take n)
          return .scalar value :: (← tokens? (cs.drop n))
termination_by cs => cs.length

end QubitRouting.Json
