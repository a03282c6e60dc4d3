import QubitRouting.Data.Yaml.Source
import QubitRouting.Numeral.Radix
import QubitRouting.Text.Parsed

/-!
# Tags

A tag says what kind of value a node is. It is written in full between angle brackets, or as a
shorthand: a handle that stands for the first part of the tag, and the rest.
-/

set_option autoImplicit false

namespace QubitRouting.Yaml

/-- The characters of a tag. Escaped bytes that make no character are `none`. -/
abbrev TagText := List (Option Char)

namespace TagText

def ofString (s : String) : TagText := s.toList.map some

/-- A tag ends before the character with code zero. -/
def cut (t : TagText) : TagText := t.takeWhile (· != some '\x00')

end TagText

/-! ## Escaped characters -/

/-- The byte that a percent sign and two digits write. -/
def octet? : List Char → Option Nat
  | '%' :: a :: b :: _ => do return 16 * (← Radix.digit? 16 a) + (← Radix.digit? 16 b)
  | _ => none

/-- How many bytes a character takes, from its first byte. -/
def octetCount? (first : Nat) : Option Nat :=
  if first < 0x80 then some 1
  else if first < 0xC0 then none
  else if first < 0xE0 then some 2
  else if first < 0xF0 then some 3
  else if first < 0xF8 then some 4
  else none

/-- Appends to a code the six bits of each of `n` more bytes. -/
def moreOctets? (code : Nat) : Nat → List Char → Option Nat
  | 0, _ => some code
  | n + 1, cs => do
    let octet ← octet? cs
    if octet / 64 != 2 then none
    moreOctets? (64 * code + octet % 64) n (cs.drop 3)

/-- The least code that takes so many bytes. -/
def leastCode : Nat → Nat
  | 0 | 1 => 0
  | 2 => 0x80
  | 3 => 0x800
  | _ => 0x10000

/-- The escaped character at the front, and the number of its bytes. -/
def escapedChar? (cs : List Char) : Option (Option Char × Nat) := do
  let first ← octet? cs
  let count ← octetCount? first
  let bits := if count = 1 then first else first % Nat.pow 2 (7 - count)
  let code ← moreOctets? bits (count - 1) (cs.drop 3)
  let char := if leastCode count ≤ code ∧ code.isValidChar then some (Char.ofNat code) else none
  return (char, count)

/-! ## Reading tags -/

/-- The characters of tags; those of brackets only in a tag that is written in full. -/
def isTagChar (verbatim : Bool) (c : Char) : Bool :=
  isWordChar c || ";/?:@&=+$.!~*'()".toList.contains c ||
    (verbatim && (c = ',' || c = '[' || c = ']'))

/-- Reads the characters of a tag. -/
def tagText (verbatim : Bool) (cs : List Char) : Option (Passed TagText cs) :=
  match cs with
  | [] => some (.nothing [] [])
  | c :: cs => do
    if c = '%' then
      let (char, count) ← escapedChar? (c :: cs)
      let p ← tagText verbatim (cs.drop (3 * count - 1))
      return .ofParsed (((p.within (Text.drop_length_le _ cs)).map (char :: ·)).behind c)
    else if isTagChar verbatim c then
      return .ofParsed (((← tagText verbatim cs).behind c).map (some c :: ·))
    else return .nothing [] (c :: cs)
termination_by cs.length
decreasing_by
  · exact Nat.lt_succ_of_le (Text.drop_length_le _ cs)
  · exact Nat.lt_succ_self _

/-- A tag as it is written: a handle, which is empty if the tag is written in full, and the rest. -/
structure WrittenTag where
  handle : String
  rest : TagText
deriving DecidableEq, Repr

/-- Reads a tag behind its exclamation mark. A single exclamation mark is a tag of its own. -/
def writtenTag (cs : List Char) : Option (Passed WrittenTag cs) :=
  match cs with
  | '<' :: cs => do
    let p ← tagText true cs
    if p.value.isEmpty then none
    match h : p.rest with
    | '>' :: rest =>
      return ⟨⟨"", p.value.cut⟩, rest, by
        have := p.notLonger
        rw [h, List.length_cons] at this
        simp only [List.length_cons]
        omega⟩
    | _ => none
  | cs => do
    let word := cs.takeWhile isWordChar
    have := Text.dropWhile_length_le isWordChar cs
    match h : cs.dropWhile isWordChar with
    | '!' :: rest =>
      let p ← tagText false rest
      if p.value.isEmpty then none
      return ⟨⟨"!" ++ String.ofList word ++ "!", p.value.cut⟩, p.rest, by
        have h' := p.notLonger
        rw [h, List.length_cons] at this
        omega⟩
    | rest =>
      let p ← tagText false rest
      let text := TagText.cut (word.map some ++ p.value)
      return ⟨if text.isEmpty then ⟨"", [some '!']⟩ else ⟨"!", text⟩, p.rest, by
        have h' := p.notLonger
        rw [h] at this
        omega⟩

/-! ## What tags mean -/

/-- What a tag says about a node. -/
inductive Tag where
  /-- Nothing: the node shows what it is. -/
  | absent
  | bool
  | integer
  | real
  | null
  /-- A kind of value that no document has. -/
  | foreign
  /-- A scalar is a text. -/
  | other
deriving DecidableEq, Repr

namespace Tag

/-- The tag with this text. -/
def ofText (t : TagText) : Tag :=
  if t = TagText.ofString "tag:yaml.org,2002:bool" then bool
  else if t = TagText.ofString "tag:yaml.org,2002:int" then integer
  else if t = TagText.ofString "tag:yaml.org,2002:float" then real
  else if t = TagText.ofString "tag:yaml.org,2002:null" then null
  else if t.head? != some (some '!') then other
  else if t.all Option.isSome then foreign
  else absent

end Tag

end QubitRouting.Yaml
