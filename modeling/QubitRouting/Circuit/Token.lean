import QubitRouting.Numeral.Shortest

/-!
# Tokens of the circuit language

The circuit files are OpenQASM 2 restricted to gates on one or two qubits. A token is determined by
its text alone: `Token.ofText?` is that function, and the lexer (`Circuit/Lexeme.lean`) only decides
where each text ends. `Token.text` is the display form that error messages quote; it is the source
text again, except that a number is shown by its value.
-/

set_option autoImplicit false

namespace QubitRouting

/-- Words that are never identifiers. -/
inductive Keyword where
  | openqasm
  | includes
  | qreg
  | creg
  | measure
  | barrier
  | reset
deriving DecidableEq, Repr

namespace Keyword

def text : Keyword → String
  | openqasm => "OPENQASM"
  | includes => "include"
  | qreg => "qreg"
  | creg => "creg"
  | measure => "measure"
  | barrier => "barrier"
  | reset => "reset"

def all : List Keyword := [openqasm, includes, qreg, creg, measure, barrier, reset]

def ofText? (text : String) : Option Keyword := all.find? (·.text = text)

end Keyword

/-- Operators and punctuation. -/
inductive Symbol where
  | plus
  | minus
  | star
  | slash
  | caret
  | arrow
  | openParen
  | closeParen
  | equals
  | openBracket
  | closeBracket
  | openBrace
  | closeBrace
  | semicolon
  | comma
deriving DecidableEq, Repr

namespace Symbol

def text : Symbol → String
  | plus => "+"
  | minus => "-"
  | star => "*"
  | slash => "/"
  | caret => "^"
  | arrow => "->"
  | openParen => "("
  | closeParen => ")"
  | equals => "=="
  | openBracket => "["
  | closeBracket => "]"
  | openBrace => "\x7b"
  | closeBrace => "\x7d"
  | semicolon => ";"
  | comma => ","

def all : List Symbol :=
  [plus, minus, star, slash, caret, arrow, openParen, closeParen, equals, openBracket,
    closeBracket, openBrace, closeBrace, semicolon, comma]

def ofText? (text : String) : Option Symbol := all.find? (·.text = text)

end Symbol

/-- The tokens. A real literal keeps the double-precision number that it denotes. -/
inductive Token where
  | keyword (word : Keyword)
  | symbol (symbol : Symbol)
  | real (value : Binary64)
  | integer (value : Nat)
  | string (content : String)
  | identifier (name : String)
deriving DecidableEq, Repr

namespace Token

/-- Integer literals have 64 bits. -/
def integerLimit : Nat := Nat.pow 2 64

def isIdentifierStart (c : Char) : Bool := c.isAlpha || c = '_'

def isIdentifierRest (c : Char) : Bool := c.isAlphanum || c = '_'

/-- The token with this text. There is none for an integer of more than 64 bits, a string without
its closing quote, or a character that starts no token. -/
def ofText? : List Char → Option Token
  | [] => none
  | c :: cs =>
    if isIdentifierStart c then
      let word := String.ofList (c :: cs)
      some (match Keyword.ofText? word with
        | some k => .keyword k
        | none => .identifier word)
    else if c.isDigit && cs.all Char.isDigit then
      let value := Decimal.natOfDigits (c :: cs)
      if value < integerLimit then some (.integer value) else none
    else if c.isDigit || (c = '.' && !cs.isEmpty) then
      some (.real (Binary64.ofDecimal (Decimal.ofText (c :: cs))))
    else if c = '"' then
      if cs.getLast? = some '"' then some (.string (String.ofList cs.dropLast)) else none
    else
      (Symbol.ofText? (String.ofList (c :: cs))).map .symbol

/-- How error messages show the token. -/
def text : Token → String
  | keyword k => k.text
  | symbol s => s.text
  | real value => value.renderShortest
  | integer value => toString value
  | string content => "\"" ++ content ++ "\""
  | identifier name => name

end Token

end QubitRouting
