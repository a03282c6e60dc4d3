import QubitRouting.Text.CaseTable

/-!
# Lower case

The lower case of a text by the rules of the Unicode standard that hold in all languages. Nearly
every character is mapped by itself. Two are special: a capital I with a dot becomes two characters,
and a capital sigma at the end of a word takes its final form.
-/

set_option autoImplicit false

namespace QubitRouting.Text

def inRanges (ranges : List (Nat × Nat)) (c : Char) : Bool :=
  ranges.any fun (first, last) => first ≤ c.toNat && c.toNat ≤ last

/-- Whether a character has a case and counts as a letter's neighbour. -/
def isCased (c : Char) : Bool := inRanges casedRanges c

/-- Whether a character is skipped when a letter's neighbours are looked for. -/
def isCaseIgnorable (c : Char) : Bool := inRanges caseIgnorableRanges c

/-- Whether the first character that counts has a case. -/
def startsCased (cs : List Char) : Bool :=
  match cs.dropWhile isCaseIgnorable with
  | c :: _ => isCased c
  | [] => false

/-- The lower case of a single character. -/
def lowerChar (c : Char) : List Char :=
  if c.toNat < 0x80 then [c.toLower]
  else if c = 'İ' then ['i', '̇']
  else
    match lowerRuns.find? fun r =>
        r.first ≤ c.toNat && c.toNat ≤ r.last && (c.toNat - r.first) % r.step = 0 with
    | some r => [Char.ofNat ((c.toNat : Int) + r.offset).toNat]
    | none => [c]

/-- The lower case of a sigma between `before`, which is read backwards, and `behind`. It is final
if there is a letter before it and none behind it. -/
def lowerSigma (before behind : List Char) : Char :=
  if startsCased before && !startsCased behind then 'ς' else 'σ'

/-- The lower case of `cs`, which stands behind `before`. -/
def lowerFrom (before : List Char) : List Char → List Char
  | [] => []
  | c :: cs =>
    (if c = 'Σ' then [lowerSigma before cs] else lowerChar c) ++ lowerFrom (c :: before) cs

/-- The lower case of a text. -/
def lowercase (s : String) : String := String.ofList (lowerFrom [] s.toList)

end QubitRouting.Text
