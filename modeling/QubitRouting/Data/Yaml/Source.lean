/-!
# Characters and places of a YAML source
-/

set_option autoImplicit false

namespace QubitRouting.Yaml

/-! ## Characters -/

/-- Whether a source may hold the character. -/
def isPrintable (c : Char) : Bool :=
  let n := c.toNat
  n = 0x09 || n = 0x0A || n = 0x0D || (0x20 ≤ n && n ≤ 0x7E) || n = 0x85 || (0xA0 ≤ n && n ≤ 0xFFFD)
    || 0x10000 ≤ n

/-- The ends of lines, which include the separators of lines and paragraphs. -/
def isBreak (c : Char) : Bool :=
  c = '\n' || c = '\r' || c = '\u0085' || c = '\u2028' || c = '\u2029'

def isSpace (c : Char) : Bool := c = ' ' || c = '\t'

def isBlank (c : Char) : Bool := isSpace c || isBreak c

/-- The characters of names. -/
def isWordChar (c : Char) : Bool := c.isAlphanum || c = '_' || c = '-'

/-- The characters that structure lists and records on one line. -/
def isFlowIndicator (c : Char) : Bool :=
  c = ',' || c = '[' || c = ']' || c = '\x7b' || c = '\x7d'

/-- Whether a text ends here or goes on with a blank. -/
def endsHere : List Char → Bool
  | [] => true
  | c :: _ => isBlank c

/-- Whether a line starts with a mark between documents. -/
def startsMarker : List Char → Bool
  | '-' :: '-' :: '-' :: cs => endsHere cs
  | '.' :: '.' :: '.' :: cs => endsHere cs
  | _ => false

/-! ## Line ends -/

/-- How many characters make the line end at the front. A carriage return and a line feed are one
line end. -/
def breakLength : List Char → Nat
  | '\r' :: '\n' :: _ => 2
  | c :: _ => if isBreak c then 1 else 0
  | [] => 0

/-- What a line end stands for. The two separators stand for themselves. -/
def breakChar (c : Char) : Char := if c = '\u2028' || c = '\u2029' then c else '\n'

/-- The line ends of a text, without what is between them. -/
def breaks : List Char → List Char
  | '\r' :: '\n' :: cs => '\n' :: breaks cs
  | c :: cs => if isBreak c then breakChar c :: breaks cs else breaks cs
  | [] => []

/-- What the blanks between two words stand for. Without a line end they stand for themselves. One
line end is a space, and of several the first is dropped; a separator is never dropped. -/
def fold (blanks : List Char) : List Char :=
  match breaks blanks with
  | [] => blanks
  | ['\n'] => [' ']
  | '\n' :: more => more
  | ends => ends

/-! ## Places -/

/-- A place in a source, counted from zero. -/
structure Position where
  offset : Nat := 0
  line : Nat := 0
  column : Nat := 0
deriving DecidableEq, Repr

namespace Position

/-- The place behind some characters of a line. -/
def right (p : Position) (n : Nat) : Position := ⟨p.offset + n, p.line, p.column + n⟩

/-- The place behind some characters. -/
def after : Position → List Char → Position
  | p, [] => p
  | p, '\r' :: '\n' :: cs => after ⟨p.offset + 2, p.line + 1, 0⟩ cs
  | p, c :: cs => if isBreak c then after ⟨p.offset + 1, p.line + 1, 0⟩ cs else after (p.right 1) cs

end Position

/-- A text that was read, and the place behind it. -/
structure Span where
  text : List Char
  stop : Position
deriving DecidableEq, Repr

namespace Span

/-- The same span with more text in front. -/
def prepend (text : List Char) (s : Span) : Span := { s with text := text ++ s.text }

end Span

end QubitRouting.Yaml
