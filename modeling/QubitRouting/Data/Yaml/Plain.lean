import QubitRouting.Data.Yaml.Source
import QubitRouting.Text.Parsed

/-!
# Plain YAML scalars

A scalar without quotes goes on over words and lines until something ends it: a colon with a blank
behind it, a comment, a mark between documents, the punctuation of the brackets around it, or,
outside brackets, a line that is not indented enough. Characters that mean something at the start of
a value mean nothing inside.
-/

set_option autoImplicit false

namespace QubitRouting.Yaml

/-- How long the word at the front is. Inside brackets, a colon with punctuation behind it makes it
invalid. -/
def wordLength? (flow : Bool) : List Char → Option Nat
  | [] => some 0
  | c :: cs =>
    let punctuated := cs.head?.any fun d => isFlowIndicator d || d = '?'
    if isBlank c then some 0
    else if flow && c = ':' && punctuated then none
    else if (c = ':' && endsHere cs) || (flow && isFlowIndicator c) then some 0
    else (wordLength? flow cs).map (· + 1)

/-- Whether a tab stands in these blanks behind a line end, in a column before `indent`. -/
def hasEarlyTab (indent : Nat) (p : Position) (blanks : List Char) : Bool :=
  let lines := blanks.dropWhile isSpace
  let rec go : Position → List Char → Bool
    | _, [] => false
    | q, c :: cs => (c = '\t' && q.column < indent) || go (q.after [c]) cs
  go (p.after (blanks.takeWhile isSpace)) lines

/-- A plain scalar, and whether it reaches a line end. -/
structure PlainSpan extends Span where
  reachesBreak : Bool
deriving DecidableEq, Repr

/-- Reads the rest of a plain scalar. Outside brackets, lines that continue it start in column
`indent` or behind it. -/
def plainRest (flow : Bool) (indent : Nat) (p : Position) (cs : List Char) :
    Option (Passed PlainSpan cs) := do
  let n ← wordLength? flow cs
  let word := cs.take n
  let q := p.right n
  match h : cs.drop n with
  | [] => return ⟨⟨⟨word, q⟩, false⟩, [], Nat.zero_le _⟩
  | c :: tail =>
    have shorter : tail.length < cs.length := Text.length_lt_of_drop_eq_cons h
    if !isBlank c then return ⟨⟨⟨word, q⟩, false⟩, c :: tail, shorter⟩
    else
      let blanks := c :: tail.takeWhile isBlank
      let rest := tail.dropWhile isBlank
      have within : (tail.dropWhile isBlank).length < cs.length :=
        Nat.lt_of_le_of_lt (Text.dropWhile_length_le isBlank tail) shorter
      let next := q.after blanks
      let broken := blanks.any isBreak
      if hasEarlyTab indent q blanks then none
      else if (broken && !flow && next.column < indent) || (next.column = 0 && startsMarker rest)
          || rest.head? = some '#' then
        return ⟨⟨⟨word, next⟩, broken⟩, rest, Nat.le_of_lt within⟩
      else
        let more ← plainRest flow indent next rest
        let joined (s : PlainSpan) : PlainSpan :=
          if s.text.isEmpty then ⟨⟨word, s.stop⟩, broken⟩
          else { s with toSpan := s.toSpan.prepend (word ++ fold blanks) }
        return (more.within (Nat.le_of_lt within)).map joined
termination_by cs.length
decreasing_by exact within

end QubitRouting.Yaml
