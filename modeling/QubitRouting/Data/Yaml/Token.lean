import QubitRouting.Data.Yaml.BlockText
import QubitRouting.Data.Yaml.Directive
import QubitRouting.Data.Yaml.Plain
import QubitRouting.Data.Yaml.Quoted

/-!
# YAML tokens

The tokens of a source, among them those that are not written: where a block list or record opens
and closes, which follows from the columns, and that a value is a key, which shows only at the colon
behind it. Anchors are numbered as they are read.
-/

set_option autoImplicit false

namespace QubitRouting.Yaml

inductive Token where
  | directive (directive : Directive)
  | documentStart
  | documentEnd
  | openBlockList
  | openBlockRecord
  | closeBlock
  | openList
  | closeList
  | openRecord
  | closeRecord
  | comma
  | dash
  | key
  | value
  | reference (number : Nat)
  | anchor (number : Nat)
  | tag (tag : WrittenTag)
  | scalar (plain : Bool) (text : String)
deriving DecidableEq, Repr

/-! ## Scanning -/

/-- A place where a key may have started: how many tokens stand before it, and whether there must be
a key, because a record is open in its column. -/
structure KeyMark where
  index : Nat
  position : Position
  required : Bool
deriving DecidableEq, Repr

/-- What is known in the middle of a source. -/
structure Scan where
  position : Position := {}
  /-- The columns of the open block lists and records, innermost first. -/
  levels : List Nat := []
  /-- Where a key may have started, and the same for each open bracket around. -/
  mark : Option KeyMark := none
  outer : List (Option KeyMark) := []
  /-- Whether a key may start here. -/
  keyAllowed : Bool := true
  /-- The anchors so far with their numbers. -/
  names : List (String × Nat) := []
  /-- The tokens so far, the latest first, and how many they are. -/
  tokens : List Token := []
  count : Nat := 0
deriving Repr

namespace Scan

/-- Whether a bracket is open. -/
def inFlow (s : Scan) : Bool := !s.outer.isEmpty

/-- How far a line must be indented to belong to the innermost block list or record. -/
def indent (s : Scan) : Nat := s.levels.head?.elim 0 (· + 1)

def emit (s : Scan) (t : Token) : Scan := { s with tokens := t :: s.tokens, count := s.count + 1 }

/-- Inserts a token behind the first `index` ones. -/
def emitAt (s : Scan) (index : Nat) (t : Token) : Scan :=
  let later := s.count - index
  { s with tokens := s.tokens.take later ++ t :: s.tokens.drop later, count := s.count + 1 }

/-! ### Block structure -/

/-- Opens a block list or record in this column, unless one is open there. -/
def openBlock (s : Scan) (column index : Nat) (t : Token) : Scan :=
  if !s.inFlow && s.indent ≤ column then
    { s with levels := column :: s.levels }.emitAt index t
  else s

/-- Closes the block lists and records that satisfy a condition on their columns. -/
def closeWhile (s : Scan) (condition : Nat → Bool) : Scan :=
  if s.inFlow then s
  else
    let closed := (s.levels.takeWhile condition).length
    { s with
      levels := s.levels.drop closed
      tokens := List.replicate closed .closeBlock ++ s.tokens
      count := s.count + closed }

/-! ### Keys -/

/-- Forgets where a key may have started; there must not be one. -/
def clearMark (s : Scan) : Option Scan :=
  if s.mark.any (·.required) then none else some { s with mark := none }

/-- Notes that a key may start here. -/
def setMark (s : Scan) : Option Scan :=
  if s.keyAllowed then do
    let required := !s.inFlow && s.levels.head? = some s.position.column
    return { ← s.clearMark with mark := some ⟨s.count, s.position, required⟩ }
  else some s

/-- Whether a key that started there cannot end here: keys are on one line and not too long. -/
def isStale (s : Scan) (m : KeyMark) : Bool :=
  m.position.line < s.position.line || m.position.offset + 1024 < s.position.offset

/-- Forgets where a key may have started that cannot end here. The marks of brackets around are
looked at when those are closed. -/
def dropStale (s : Scan) : Option Scan := if s.mark.any s.isStale then s.clearMark else some s

/-! ### Names -/

/-- Numbers an anchor by the number of names before it. A name can be given again. -/
def declare (s : Scan) (name : String) : Scan :=
  let number := s.names.length
  { s with names := (name, number) :: s.names.filter (·.1 != name) }.emit (.anchor number)

/-- Refers to an anchor. -/
def refer (s : Scan) (name : String) : Option Scan := do
  let (_, number) ← s.names.find? (·.1 = name)
  return s.emit (.reference number)

/-- Whether the name of an anchor can end before this text. -/
def endsName (cs : List Char) : Bool :=
  endsHere cs || cs.head?.any fun c => "?:,]\x7d%@\x60".toList.contains c

/-! ### Tokens -/

/-- A token of one character. -/
def punctuation (s : Scan) (t : Token) (c : Char) (cs : List Char) : Parsed Scan (c :: cs) :=
  .one { s.emit t with position := s.position.right 1 } c cs

/-- A mark between documents. -/
def marker (s : Scan) (t : Token) (c : Char) (cs : List Char) : Option (Parsed Scan (c :: cs)) := do
  let s ← (s.closeWhile fun _ => true).clearMark
  return ⟨{ s.emit t with position := s.position.right 3, keyAllowed := false }, cs.drop 2, by
    simp only [List.length_drop, List.length_cons]
    omega⟩

/-- A directive, with the end of its line. -/
def directive (s : Scan) (c : Char) (cs : List Char) : Option (Parsed Scan (c :: cs)) := do
  let s ← (s.closeWhile fun _ => true).clearMark
  let line := cs.takeWhile (!isBreak ·)
  let rest := cs.dropWhile (!isBreak ·)
  let d ← Directive.ofLine? line
  let n := breakLength rest
  let position := (s.position.right 1).after (line ++ rest.take n)
  return ⟨{ s.emit (.directive d) with position, keyAllowed := false }, rest.drop n, by
    have : rest.length ≤ cs.length := Text.dropWhile_length_le (!isBreak ·) cs
    simp only [List.length_drop, List.length_cons]
    omega⟩

/-- The bracket that opens a list or record, which may be a key. -/
def openBracket (s : Scan) (t : Token) (c : Char) (cs : List Char) :
    Option (Parsed Scan (c :: cs)) := do
  let s ← s.setMark
  return { s with mark := none, outer := s.mark :: s.outer, keyAllowed := true }.punctuation t c cs

/-- The bracket that closes a list or record. -/
def closeBracket (s : Scan) (t : Token) (c : Char) (cs : List Char) :
    Option (Parsed Scan (c :: cs)) := do
  let s ← s.clearMark
  let s := { s with mark := s.outer.head?.join, outer := s.outer.tail, keyAllowed := false }
  return s.punctuation t c cs

def comma (s : Scan) (c : Char) (cs : List Char) : Option (Parsed Scan (c :: cs)) := do
  return { ← s.clearMark with keyAllowed := true }.punctuation .comma c cs

/-- The dash of a block list. Outside brackets it stands only where a key may start. -/
def dash (s : Scan) (c : Char) (cs : List Char) : Option (Parsed Scan (c :: cs)) := do
  if !s.inFlow && !s.keyAllowed then none
  let s ← (s.openBlock s.position.column s.count .openBlockList).clearMark
  return { s with keyAllowed := true }.punctuation .dash c cs

/-- The question mark before a key. -/
def question (s : Scan) (c : Char) (cs : List Char) : Option (Parsed Scan (c :: cs)) := do
  if !s.inFlow && !s.keyAllowed then none
  let s ← (s.openBlock s.position.column s.count .openBlockRecord).clearMark
  return { s with keyAllowed := !s.inFlow }.punctuation .key c cs

/-- The colon behind a key. If a key may have started on the line, it did. -/
def colon (s : Scan) (c : Char) (cs : List Char) : Option (Parsed Scan (c :: cs)) :=
  match s.mark with
  | some m =>
    let s := (s.emitAt m.index .key).openBlock m.position.column m.index .openBlockRecord
    some ({ s with mark := none, keyAllowed := false }.punctuation .value c cs)
  | none =>
    if !s.inFlow && !s.keyAllowed then none
    else
      let s := s.openBlock s.position.column s.count .openBlockRecord
      some ({ s with keyAllowed := !s.inFlow }.punctuation .value c cs)

/-- An anchor or a reference to one. -/
def name (s : Scan) (c : Char) (cs : List Char) : Option (Parsed Scan (c :: cs)) := do
  let s ← s.setMark
  let word := cs.takeWhile isWordChar
  let rest := cs.dropWhile isWordChar
  if word.isEmpty || !endsName rest then none
  let name := String.ofList word
  let s ← if c = '*' then s.refer name else some (s.declare name)
  return ⟨{ s with position := s.position.right (1 + word.length), keyAllowed := false }, rest,
    Nat.lt_succ_of_le (Text.dropWhile_length_le isWordChar cs)⟩

def tag (s : Scan) (c : Char) (cs : List Char) : Option (Parsed Scan (c :: cs)) := do
  let s ← s.setMark
  let p ← writtenTag cs
  if !(endsHere p.rest || (s.inFlow && p.rest.head? = some ',')) then none
  let position := s.position.right (1 + (cs.length - p.rest.length))
  return ⟨{ s.emit (.tag p.value) with position, keyAllowed := false }, p.rest,
    Nat.lt_succ_of_le p.notLonger⟩

/-- A block scalar. -/
def block (s : Scan) (folded : Bool) (c : Char) (cs : List Char) :
    Option (Parsed Scan (c :: cs)) := do
  let s ← s.clearMark
  let p ← blockText folded s.levels.head? (s.position.right 1) cs
  let s := s.emit (.scalar false (String.ofList p.value.text))
  return (p.behind c).map fun span => { s with position := span.stop, keyAllowed := true }

/-- A scalar in quotes. -/
def quoted (s : Scan) (c : Char) (cs : List Char) : Option (Parsed Scan (c :: cs)) := do
  let s ← s.setMark
  let p ← if c = '"' then doubleQuoted (s.position.right 1) cs
    else singleQuoted (s.position.right 1) cs
  let s := s.emit (.scalar false (String.ofList p.value.text))
  return (p.behind c).map fun span => { s with position := span.stop, keyAllowed := false }

/-- A scalar without quotes. Behind a line end, a key may start again. -/
def plain (s : Scan) (c : Char) (cs : List Char) : Option (Parsed Scan (c :: cs)) := do
  let s ← s.setMark
  let p ← plainRest s.inFlow s.indent (s.position.right 1) cs
  let s := s.emit (.scalar true (String.ofList (c :: p.value.text)))
  return (p.behind c).map fun span =>
    { s with position := span.stop, keyAllowed := span.reachesBreak }

/-- Whether a character cannot start a plain scalar. -/
def isReserved (c : Char) : Bool := isBlank c || "-?:,[]\x7b\x7d#&*!|>'\"%@\x60".toList.contains c

/-- Reads the token that starts here. -/
def next (s : Scan) (c : Char) (cs : List Char) : Option (Parsed Scan (c :: cs)) :=
  if s.position.column = 0 && c = '%' then s.directive c cs
  else if s.position.column = 0 && startsMarker (c :: cs) then
    s.marker (if c = '-' then .documentStart else .documentEnd) c cs
  else if c = '[' then s.openBracket .openList c cs
  else if c = '\x7b' then s.openBracket .openRecord c cs
  else if c = ']' then s.closeBracket .closeList c cs
  else if c = '\x7d' then s.closeBracket .closeRecord c cs
  else if c = ',' then s.comma c cs
  else if c = '-' && endsHere cs then s.dash c cs
  else if c = '?' && (s.inFlow || endsHere cs) then s.question c cs
  else if c = ':' && (s.inFlow || endsHere cs) then s.colon c cs
  else if c = '*' || c = '&' then s.name c cs
  else if c = '!' then s.tag c cs
  else if (c = '|' || c = '>') && !s.inFlow then s.block (c = '>') c cs
  else if c = '\'' || c = '"' then s.quoted c cs
  else if !isReserved c || c = '-' || (!s.inFlow && (c = '?' || c = ':')) then s.plain c cs
  else none

end Scan

/-- The tokens of a text. Outside brackets, a tab cannot stand where a key may start. -/
def tokens? (s : Scan) (cs : List Char) : Option (List Token) :=
  match cs with
  | [] => do
    let s ← ((← s.dropStale).closeWhile fun _ => true).clearMark
    return s.tokens.reverse
  | c :: rest =>
    if isBreak c then
      let n := breakLength (c :: rest) - 1
      let position := s.position.after (c :: rest.take n)
      tokens? { s with position, keyAllowed := s.keyAllowed || !s.inFlow } (rest.drop n)
    else if c = ' ' || (c = '\t' && (s.inFlow || !s.keyAllowed))
        || (c = '\ufeff' && s.position.offset = 0) then
      tokens? { s with position := s.position.right 1 } rest
    else if c = '#' then
      let comment := rest.takeWhile (!isBreak ·)
      have : (rest.dropWhile (!isBreak ·)).length ≤ rest.length :=
        Text.dropWhile_length_le (!isBreak ·) rest
      tokens? { s with position := s.position.right (1 + comment.length) }
        (rest.dropWhile (!isBreak ·))
    else do
      let s ← s.dropStale
      let p ← (s.closeWhile (s.position.column < ·)).next c rest
      have : p.rest.length ≤ rest.length := Nat.le_of_lt_succ p.shorter
      tokens? p.value p.rest
termination_by cs.length

end QubitRouting.Yaml
