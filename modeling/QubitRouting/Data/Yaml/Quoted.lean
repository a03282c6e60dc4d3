import QubitRouting.Data.Yaml.Source
import QubitRouting.Numeral.Radix
import QubitRouting.Text.Parsed

/-!
# Quoted YAML scalars

Both kinds of quotes may run over several lines, which are folded. A line inside quotes may not look
like a mark between documents.
-/

set_option autoImplicit false

namespace QubitRouting.Yaml

/-- Whether the text at this place is a line that looks like a mark between documents. -/
def isMarkerAt (p : Position) (cs : List Char) : Bool := p.column = 0 && startsMarker cs

/-- Reads the rest of a scalar in single quotes; two quotes stand for one. -/
def singleQuoted (p : Position) (cs : List Char) : Option (Parsed Span cs) :=
  match cs with
  | [] => none
  | '\'' :: '\'' :: cs => do
    return (((← singleQuoted (p.right 2) cs).map (·.prepend ['\''])).behind '\'').behind '\''
  | '\'' :: cs => some (.one ⟨[], p.right 1⟩ '\'' cs)
  | c :: cs => do
    if isBlank c then
      let blanks := c :: cs.takeWhile isBlank
      let rest := cs.dropWhile isBlank
      if isMarkerAt (p.after blanks) rest then none
      let s ← singleQuoted (p.after blanks) rest
      return ((s.within (Text.dropWhile_length_le isBlank cs)).map
        (·.prepend (fold blanks))).behind c
    else return ((← singleQuoted (p.right 1) cs).map (·.prepend [c])).behind c
termination_by cs.length
decreasing_by
  · exact Nat.lt_succ_of_lt (Nat.lt_succ_self _)
  · exact Nat.lt_succ_of_le (Text.dropWhile_length_le isBlank cs)
  · exact Nat.lt_succ_self _

/-- The character that a backslash and this letter stand for. -/
def escape? : Char → Option Char
  | '0' => some '\x00'
  | 'a' => some '\x07'
  | 'b' => some '\x08'
  | 't' => some '\t'
  | '\t' => some '\t'
  | 'n' => some '\n'
  | 'v' => some '\x0b'
  | 'f' => some '\x0c'
  | 'r' => some '\r'
  | 'e' => some '\x1b'
  | ' ' => some ' '
  | '"' => some '"'
  | '/' => some '/'
  | '\\' => some '\\'
  | 'N' => some '\u0085'
  | '_' => some '\u00a0'
  | 'L' => some '\u2028'
  | 'P' => some '\u2029'
  | _ => none

/-- How many hexadecimal digits follow a backslash and this letter. -/
def codeWidth : Char → Nat
  | 'x' => 2
  | 'u' => 4
  | 'U' => 8
  | _ => 0

/-- The character with a code that is written in so many hexadecimal digits. -/
def coded? (width : Nat) (digits : List Char) : Option Char := do
  if digits.length < width then none
  let n ← Radix.ofDigits? 16 digits
  if n.isValidChar then some (Char.ofNat n) else none

/-- Reads the rest of a scalar in double quotes. A backslash at the end of a line joins the lines
without a space; empty lines behind it stand for themselves. -/
def doubleQuoted (p : Position) (cs : List Char) : Option (Parsed Span cs) :=
  match cs with
  | [] => none
  | '"' :: cs => some (.one ⟨[], p.right 1⟩ '"' cs)
  | '\\' :: cs =>
    let n := breakLength cs
    if 0 < n then do
      let blanks := (cs.drop n).takeWhile isBlank
      let rest := (cs.drop n).dropWhile isBlank
      have within : rest.length ≤ cs.length :=
        Nat.le_trans (Text.dropWhile_length_le isBlank _) (Text.drop_length_le n cs)
      let q := (p.right 1).after (cs.take n ++ blanks)
      if isMarkerAt q rest then none
      let s ← doubleQuoted q rest
      return ((s.within within).map (·.prepend (breaks blanks))).behind '\\'
    else
      match cs with
      | [] => none
      | c :: cs => do
        let width := codeWidth c
        let char ← if 0 < width then coded? width (cs.take width) else escape? c
        let s ← doubleQuoted (p.right (2 + width)) (cs.drop width)
        return (((s.within (Text.drop_length_le width cs)).map
          (·.prepend [char])).behind c).behind '\\'
  | c :: cs => do
    if isBlank c then
      let blanks := c :: cs.takeWhile isBlank
      let rest := cs.dropWhile isBlank
      if isMarkerAt (p.after blanks) rest then none
      let s ← doubleQuoted (p.after blanks) rest
      return ((s.within (Text.dropWhile_length_le isBlank cs)).map
        (·.prepend (fold blanks))).behind c
    else return ((← doubleQuoted (p.right 1) cs).map (·.prepend [c])).behind c
termination_by cs.length
decreasing_by
  · exact Nat.lt_succ_of_le within
  · exact Nat.lt_succ_of_lt (Nat.lt_succ_of_le (Text.drop_length_le _ cs))
  · exact Nat.lt_succ_of_le (Text.dropWhile_length_le isBlank cs)
  · exact Nat.lt_succ_self _

end QubitRouting.Yaml
