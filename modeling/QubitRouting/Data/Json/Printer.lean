import QubitRouting.Data.Document

/-!
# Writing JSON

Two written forms: on one line, and indented by two blanks.
-/

set_option autoImplicit false

namespace QubitRouting.Json

def hexChar (n : Nat) : Char := Nat.digitChar n

/-- A character inside quotes. Quotes, backslashes and control characters are escaped. -/
def escapeChar (c : Char) : List Char :=
  match c with
  | '"' => ['\\', '"']
  | '\\' => ['\\', '\\']
  | '\x08' => ['\\', 'b']
  | '\x0c' => ['\\', 'f']
  | '\n' => ['\\', 'n']
  | '\r' => ['\\', 'r']
  | '\t' => ['\\', 't']
  | c =>
    if c.toNat < 0x20 then ['\\', 'u', '0', '0', hexChar (c.toNat / 16), hexChar (c.toNat % 16)]
    else [c]

/-- A text in quotes. -/
def quoted (s : String) : String :=
  "\"" ++ String.ofList (s.toList.flatMap escapeChar) ++ "\""

end QubitRouting.Json

namespace QubitRouting.Document

open Json

mutual

/-- The document on one line. -/
def render : Document → String
  | null => "null"
  | bool true => "true"
  | bool false => "false"
  | integer n => toString n
  | real t => t
  | text s => quoted s
  | list items => "[" ++ String.intercalate "," (renderItems items) ++ "]"
  | record fields => "\x7b" ++ String.intercalate "," (renderFields fields) ++ "\x7d"

def renderItems : List Document → List String
  | [] => []
  | d :: ds => render d :: renderItems ds

def renderFields : List (String × Document) → List String
  | [] => []
  | (name, d) :: ds => (quoted name ++ ":" ++ render d) :: renderFields ds

end

/-- A bracketed block of lines, indented two blanks more than `indent`. -/
def block (indent : Nat) (opening closing : String) (lines : List String) : String :=
  let margin (n : Nat) := String.ofList (List.replicate n ' ')
  if lines.isEmpty then opening ++ closing
  else
    opening ++ "\n" ++
      String.intercalate ",\n" (lines.map (margin (indent + 2) ++ ·)) ++
      "\n" ++ margin indent ++ closing

mutual

/-- The document over several lines, starting in column `indent`. -/
def renderIndented (indent : Nat) : Document → String
  | list items => block indent "[" "]" (indentedItems (indent + 2) items)
  | record fields => block indent "\x7b" "\x7d" (indentedFields (indent + 2) fields)
  | d => render d

def indentedItems (indent : Nat) : List Document → List String
  | [] => []
  | d :: ds => renderIndented indent d :: indentedItems indent ds

def indentedFields (indent : Nat) : List (String × Document) → List String
  | [] => []
  | (name, d) :: ds =>
    (quoted name ++ ": " ++ renderIndented indent d) :: indentedFields indent ds

end

end QubitRouting.Document
