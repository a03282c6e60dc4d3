import QubitRouting.Circuit.Token

/-!
# Lexemes

`Lexeme.scan` cuts a source text into lexemes: each is the longest text at its place that some token
can have. Between two lexemes stand only blanks and comments, and these are kept with the lexeme
that follows, so that nothing of the source is lost.

A text that no token has becomes a lexeme without a token, and scanning goes on after it. Such a
lexeme is a single character, unless it is a string that is never closed, which reaches to the end
of the source, or an integer that is too large.
-/

set_option autoImplicit false

namespace QubitRouting

/-- The number of bytes that the characters take in UTF-8. -/
def byteLength (cs : List Char) : Nat := cs.foldl (fun n c => n + c.utf8Size) 0

/-- The number of line ends among the characters. -/
def lineEnds (cs : List Char) : Nat := cs.count '\n'

/-- The line, counted from one, on which the byte at `offset` stands; an offset past the end counts
as the end. -/
def lineOf (source : List Char) (offset : Nat) : Nat :=
  1 + go source 0
where
  go : List Char → Nat → Nat
    | [], _ => 0
    | c :: cs, here =>
      if here < offset then (if c = '\n' then 1 else 0) + go cs (here + c.utf8Size) else 0

/-- A piece of the source with its place. `start` is a byte offset and `line` the line of it;
`skipped` is the text between the previous lexeme and this one. -/
structure Lexeme (τ : Type) where
  token : τ
  text : List Char
  skipped : List Char
  start : Nat
  line : Nat
deriving Repr

namespace Lexeme

/-- The byte offset behind the lexeme. -/
def stop {τ : Type} (l : Lexeme τ) : Nat := l.start + byteLength l.text

/-! ## Blanks and comments -/

def isBlank (c : Char) : Bool := c = ' ' || c = '\t' || c = '\r' || c = '\n'

/-- The blanks and comments at the start of a text; `inComment` says that a comment is open. A
comment runs up to the end of its line. -/
def gap : Bool → List Char → List Char
  | _, [] => []
  | true, c :: cs => c :: gap (c != '\n') cs
  | false, '/' :: '/' :: cs => '/' :: '/' :: gap true cs
  | false, c :: cs => if isBlank c then c :: gap false cs else []

/-! ## The longest match -/

/-- The length of an exponent (a mark, an optional sign and digits) at the start of a text, or zero
if there is none: a mark without digits is not one. -/
def exponentExtent : List Char → Nat
  | mark :: cs =>
    if mark = 'e' || mark = 'E' then
      let (sign, digits) :=
        match cs with
        | '+' :: rest => (1, rest)
        | '-' :: rest => (1, rest)
        | rest => (0, rest)
      let n := (digits.takeWhile Char.isDigit).length
      if n = 0 then 0 else 1 + sign + n
    else 0
  | [] => 0

/-- The length of digits with an optional exponent. -/
def digitsExtent (cs : List Char) : Nat :=
  let n := (cs.takeWhile Char.isDigit).length
  n + exponentExtent (cs.drop n)

/-- How many characters of `cs` belong to the lexeme that starts with `c`. -/
def extent (c : Char) (cs : List Char) : Nat :=
  if Token.isIdentifierStart c then (cs.takeWhile Token.isIdentifierRest).length
  else if c.isDigit then
    let n := (cs.takeWhile Char.isDigit).length
    match cs.drop n with
    | '.' :: rest => n + 1 + digitsExtent rest
    | rest => n + exponentExtent rest
  else if c = '"' then
    let n := (cs.takeWhile (· != '"')).length
    -- the closing quote, if there is one
    n + (cs.drop n).length.min 1
  else
    match cs with
    | [] => 0
    | d :: _ =>
      if c = '.' && d.isDigit then digitsExtent cs
      else if (c = '-' && d = '>') || (c = '=' && d = '=') then 1
      else 0

/-! ## Scanning -/

/-- The lexemes of `cs`, which starts at byte `offset` on `line`. -/
def scanFrom (offset line : Nat) (cs : List Char) : List (Lexeme (Option Token)) :=
  let skipped := gap false cs
  match _h : cs.drop skipped.length with
  | [] => []
  | c :: rest =>
    let n := extent c rest
    let text := c :: rest.take n
    let start := offset + byteLength skipped
    let line := line + lineEnds skipped
    { token := Token.ofText? text, text, skipped, start, line } ::
      scanFrom (start + byteLength text) (line + lineEnds text) (rest.drop n)
termination_by cs.length
decreasing_by
  have := congrArg List.length _h
  simp only [List.length_drop, List.length_cons] at this ⊢
  omega

/-- The lexemes of a source text. -/
def scan (source : List Char) : List (Lexeme (Option Token)) := scanFrom 0 1 source

/-- The text from the first of the lexemes to the last, with all that stands between them. -/
def span {τ : Type} : List (Lexeme τ) → List Char
  | [] => []
  | l :: ls => l.text ++ ls.flatMap (fun l => l.skipped ++ l.text)

end Lexeme

end QubitRouting
