import QubitRouting.Data.Yaml.Tag
import QubitRouting.Numeral.Decimal

/-!
# Directives

Lines before a document that say which version it is written in and what its shorthand tags stand
for.
-/

set_option autoImplicit false

namespace QubitRouting.Yaml

/-- What a line that starts with a percent sign says. -/
inductive Directive where
  | version (major minor : Nat)
  | shorthand (handle : String) (start : TagText)
deriving DecidableEq, Repr

/-- A number of at most nine digits at the front of a text, and the rest of it. -/
def versionNumber? (cs : List Char) : Option (Nat × List Char) :=
  let digits := cs.takeWhile Char.isDigit
  if digits.isEmpty || 9 < digits.length then none
  else some (Decimal.natOfDigits digits, cs.dropWhile Char.isDigit)

/-- A handle at the front of a text, and the rest of it. -/
def handle? : List Char → Option (String × List Char)
  | '!' :: cs =>
    let word := cs.takeWhile isWordChar
    match cs.dropWhile isWordChar with
    | '!' :: rest => some ("!" ++ String.ofList word ++ "!", rest)
    | rest => if word.isEmpty then some ("!", rest) else none
  | _ => none

namespace Directive

/-- The directive that a line says, without its percent sign and with nothing but a comment behind
it. -/
def ofLine? (line : List Char) : Option Directive := do
  let name := String.ofList (line.takeWhile isWordChar)
  let rest := line.dropWhile isWordChar
  if !endsHere rest then none
  let (directive, rest) ←
    if name = "YAML" then do
      let (major, rest) ← versionNumber? (rest.dropWhile isSpace)
      let '.' :: rest := rest | none
      let (minor, rest) ← versionNumber? rest
      some (version major minor, rest)
    else if name = "TAG" then do
      let (handle, rest) ← handle? (rest.dropWhile isSpace)
      if !(rest.head?.any isSpace) then none
      let start ← tagText true (rest.dropWhile isSpace)
      if start.value.isEmpty || !endsHere start.rest then none
      some (shorthand handle start.value.cut, start.rest)
    else none
  match rest.dropWhile isSpace with
  | [] | '#' :: _ => some directive
  | _ => none

end Directive

end QubitRouting.Yaml
