import QubitRouting.Data.Yaml.Source
import QubitRouting.Text.Parsed

/-!
# Block scalars

A block scalar is made of the indented lines that follow its mark, either as they are or folded into
paragraphs.
-/

set_option autoImplicit false

namespace QubitRouting.Yaml

/-- What happens to the line ends behind a block scalar. -/
inductive Chomping where
  | clip
  | strip
  | keep
deriving DecidableEq, Repr

namespace Chomping

def ofChar? : Char → Option Chomping
  | '+' => some keep
  | '-' => some strip
  | _ => none

end Chomping

/-- How deep a block scalar is indented. -/
def indentation? (c : Char) : Option Nat :=
  if c.isDigit && c != '0' then some (c.toNat - '0'.toNat) else none

/-- The indicators behind the mark of a block scalar. Without an indentation, its first line shows
it. -/
def blockHeader? : List Char → Option (Chomping × Option Nat)
  | [] => some (.clip, none)
  | [c] =>
    match Chomping.ofChar? c with
    | some chomping => some (chomping, none)
    | none => (indentation? c).map fun n => (.clip, some n)
  | [c, d] =>
    match Chomping.ofChar? c with
    | some chomping => (indentation? d).map fun n => (chomping, some n)
    | none => do return (← Chomping.ofChar? d, some (← indentation? c))
  | _ => none

/-- Whether a character can be an indicator of a block scalar. -/
def isBlockIndicator (c : Char) : Bool := c.isDigit || c = '+' || c = '-'

/-- The blanks before a line of a block scalar: the ends of the empty lines among them, and the
widest indentation. -/
structure Gap where
  ends : List Char
  widest : Nat
  stop : Position
deriving Repr

/-- Reads the blanks before a line. Spaces up to the indentation are skipped, all of them while it
is not known; a tab among them is an error. -/
def gap (indent? : Option Nat) (p : Position) : (cs : List Char) → Option (Passed Gap cs)
  | [] => some (.nothing ⟨[], p.column, p⟩ [])
  | '\r' :: '\n' :: cs => do
    let g ← gap indent? (p.after ['\r', '\n']) cs
    return .ofParsed (((g.behind '\n').behind '\r').map fun g =>
      { g with ends := '\n' :: g.ends, widest := max p.column g.widest })
  | c :: cs =>
    let inside := indent?.all (p.column < ·)
    if c = ' ' && inside then do return .ofParsed ((← gap indent? (p.right 1) cs).behind c)
    else if c = '\t' && inside then none
    else if isBreak c then do
      return .ofParsed (((← gap indent? (p.after [c]) cs).behind c).map fun g =>
        { g with ends := breakChar c :: g.ends, widest := max p.column g.widest })
    else some (.nothing ⟨[], p.column, p⟩ (c :: cs))

/-- The lines of a block scalar: their text, and the line ends behind it. -/
structure Lines where
  text : List Char
  lastEnd : List Char
  ends : List Char
  stop : Position
deriving Repr

/-- Reads the lines in column `indent`. The line before ended with `lastEnd`, and `ends` are the
empty lines since. In a folded scalar, two lines that both start without a blank are joined. -/
def lines (folded : Bool) (indent : Nat) (indented : Bool) (lastEnd ends : List Char) (p : Position)
    (cs : List Char) : Option (Passed Lines cs) :=
  match cs with
  | [] => some (.nothing ⟨[], lastEnd, ends, p⟩ [])
  | c :: cs =>
    if p.column != indent then some (.nothing ⟨[], lastEnd, ends, p⟩ (c :: cs))
    else do
      let joint :=
        if folded && lastEnd = ['\n'] && !indented && !isSpace c then
          if ends.isEmpty then [' '] else []
        else lastEnd
      let line := c :: cs.takeWhile (!isBreak ·)
      let tail := cs.dropWhile (!isBreak ·)
      let n := breakLength tail
      let g ← gap (some indent) (p.after (line ++ tail.take n)) (tail.drop n)
      have within : g.rest.length ≤ cs.length :=
        Nat.le_trans g.notLonger
          (Nat.le_trans (Text.drop_length_le n tail) (Text.dropWhile_length_le (!isBreak ·) cs))
      let more ← lines folded indent (isSpace c) (breaks (tail.take n)) g.value.ends
        g.value.stop g.rest
      let whole (l : Lines) : Lines := { l with text := joint ++ ends ++ line ++ l.text }
      return .ofParsed (((more.within within).map whole).behind c)
termination_by cs.length
decreasing_by exact Nat.lt_succ_of_le within

/-- Reads a block scalar behind its mark. `level` is the column of the list or record that it is
in. -/
def blockText (folded : Bool) (level : Option Nat) (p : Position) (cs : List Char) :
    Option (Passed Span cs) := do
  let indicators := cs.takeWhile isBlockIndicator
  let (chomping, given?) ← blockHeader? indicators
  let spaces := (cs.dropWhile isBlockIndicator).takeWhile isSpace
  let rest := (cs.dropWhile isBlockIndicator).dropWhile isSpace
  let comment := if rest.head? = some '#' then rest.takeWhile (!isBreak ·) else []
  let rest' := if rest.head? = some '#' then rest.dropWhile (!isBreak ·) else rest
  let n := breakLength rest'
  if !rest'.isEmpty && n = 0 then none
  let start := p.after (indicators ++ spaces ++ comment ++ rest'.take n)
  let indent? := given?.map (level.getD 0 + ·)
  let first ← gap indent? start (rest'.drop n)
  let indent := indent?.getD (max first.value.widest (max (level.elim 0 (· + 1)) 1))
  let all ← lines folded indent false [] first.value.ends first.value.stop first.rest
  let lastEnd := if chomping = .strip then [] else all.value.lastEnd
  let ends := if chomping = .keep then all.value.ends else []
  have h₁ : rest.length ≤ cs.length :=
    Nat.le_trans (Text.dropWhile_length_le isSpace _) (Text.dropWhile_length_le isBlockIndicator cs)
  have h₂ : rest'.length ≤ rest.length := by
    simp only [rest']
    split
    · exact Text.dropWhile_length_le (!isBreak ·) rest
    · exact Nat.le_refl _
  have h₃ : first.rest.length ≤ cs.length :=
    Nat.le_trans first.notLonger
      (Nat.le_trans (Text.drop_length_le n rest') (Nat.le_trans h₂ h₁))
  return (all.within h₃).map fun l => ⟨l.text ++ lastEnd ++ ends, l.stop⟩

end QubitRouting.Yaml
