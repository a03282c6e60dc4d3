import QubitRouting.Circuit.Lexeme
import QubitRouting.Circuit.Program
import QubitRouting.Circuit.SyntaxError
import QubitRouting.Text.Parsed

/-!
# Parsing programs

A recursive-descent parser over lexemes. Each parser takes the lexemes that are left and returns its
value with those that remain; that they are fewer is part of the result (`Parsed`), which is why
repetitions end. `last` is the line on which the source ends, needed where an error is reported at
the lexeme behind the offending one.
-/

set_option autoImplicit false

namespace QubitRouting

/-- The lexemes of a source without lexical errors. -/
abbrev Lexemes := List (Lexeme Token)

/-- A parser's answer on the lexemes `ls`. -/
abbrev ParseResult (α : Type) (ls : Lexemes) := Except SyntaxError (Parsed α ls)

namespace Parser

/-- The line of the next lexeme, or of the end of the source. -/
def nextLine (last : Nat) : Lexemes → Nat
  | [] => last
  | l :: _ => l.line

/-- Takes one symbol. -/
def symbol (s : Symbol) : (ls : Lexemes) → ParseResult Unit ls
  | [] => .error (.endOfInput s!"expected {s.text}")
  | l :: rest =>
    if l.token = .symbol s then .ok (.one () l rest)
    else .error (.unexpected l.line s.text l.token.text)

/-- Takes one keyword. -/
def keyword (k : Keyword) : (ls : Lexemes) → ParseResult Unit ls
  | [] => .error (.endOfInput s!"expected {k.text}")
  | l :: rest =>
    if l.token = .keyword k then .ok (.one () l rest)
    else .error (.unexpected l.line k.text l.token.text)

/-- Takes an identifier. -/
def identifier : (ls : Lexemes) → ParseResult String ls
  | [] => .error (.endOfInput "identifier")
  | l :: rest =>
    match l.token with
    | .identifier name => .ok (.one name l rest)
    | other => .error (.unexpected l.line "identifier" other.text)

/-- Register sizes and element indices have 32 bits. -/
def indexLimit : Nat := Nat.pow 2 32

/-- Takes a register size or an element index. One that is too large is reported at the lexeme
behind it. -/
def index (last : Nat) : (ls : Lexemes) → ParseResult Nat ls
  | [] => .error (.endOfInput "integer")
  | l :: rest =>
    match l.token with
    | .integer value =>
      if value < indexLimit then .ok (.one value l rest)
      else .error (.unsupported (nextLine last rest) (.index value))
    | other => .error (.unexpected l.line "integer" other.text)

/-- Takes an identifier and, if there is one, an index in brackets behind it. -/
def indexed (last : Nat) (ls : Lexemes) : ParseResult (String × Option Nat) ls := do
  let name ← identifier ls
  match hr : name.rest with
  | l :: rest =>
    if l.token = .symbol .openBracket then
      let i ← index last rest
      let close ← symbol .closeBracket i.rest
      return ⟨(name.value, some i.value), close.rest, by
        have h₁ := name.shorter
        have h₂ := i.shorter
        have h₃ := close.shorter
        rw [hr, List.length_cons] at h₁
        omega⟩
    else return name.map (·, none)
  | [] => return name.map (·, none)

/-- Takes a register or a register element. -/
def operand (last : Nat) (ls : Lexemes) : ParseResult Operand ls := do
  let p ← indexed last ls
  return p.map fun (register, index) => ⟨register, index⟩

/-- Takes the name and the size of a declared register; without a size it is one. -/
def registerDecl (last : Nat) (ls : Lexemes) : ParseResult RegisterDecl ls := do
  let p ← indexed last ls
  return p.map fun (name, size) => ⟨name, size.getD 1⟩

/-- Takes operands with commas between them. -/
def operands (last : Nat) (ls : Lexemes) : ParseResult (List Operand) ls := do
  let first ← operand last ls
  match hr : first.rest with
  | l :: rest =>
    if l.token = .symbol .comma then
      have h : rest.length < ls.length := by
        have h₁ := first.shorter
        rw [hr, List.length_cons] at h₁
        omega
      let more ← operands last rest
      return ⟨first.value :: more.value, more.rest, Nat.lt_trans more.shorter h⟩
    else return first.map ([·])
  | [] => return first.map ([·])
termination_by ls.length

/-- Takes lexemes up to the parenthesis that closes the one already taken, where `depth` more are
open. The statement must not end before. -/
def parenthesised : Nat → (ls : Lexemes) → ParseResult Lexemes ls
  | _, [] => .error (.endOfInput "expected )")
  | depth, l :: ls =>
    let further (depth : Nat) : ParseResult Lexemes (l :: ls) := do
      let p ← parenthesised depth ls
      return (p.map (l :: ·)).behind l
    match l.token with
    | .symbol .openParen => further (depth + 1)
    | .symbol .closeParen =>
      match depth with
      | 0 => .ok (.one [] l ls)
      | depth + 1 => further depth
    | .symbol .semicolon => .error (.unexpected l.line ")" ";")
    | _ => further depth

/-- Words of the full language that start statements outside this part of it. -/
def unsupportedWords : List String := ["gate", "opaque", "if"]

/-- Takes what follows a gate's name: parameters in parentheses, if there are any, and the operands.
Parameters are kept as source text, and empty parentheses count as none. -/
def gateTail (last : Nat) : (ls : Lexemes) → ParseResult (Option String × List Operand) ls
  | [] => plain []
  | l :: rest =>
    if l.token = .symbol .openParen then do
      let inner ← parenthesised 0 rest
      let params :=
        if inner.value.isEmpty then none else some (String.ofList (Lexeme.span inner.value))
      let ops ← operands last inner.rest
      return ((inner.after ops).map (params, ·)).behind l
    else plain (l :: rest)
where
  plain (ls : Lexemes) : ParseResult (Option String × List Operand) ls := do
    let ops ← operands last ls
    return ops.map (none, ·)

/-- Takes a gate call whose name stands on `line`. -/
def gateCall (last line : Nat) (name : String) (ls : Lexemes) : ParseResult GateCall ls := do
  if name ∈ unsupportedWords then throw (.unsupported line (.statement name))
  let tail ← gateTail last ls
  let (params, ops) := tail.value
  if maxGateOperands < ops.length then throw (.unsupported line (.operands name ops.length))
  return tail.map fun _ => ⟨name, params, ops, line⟩

/-- Takes the path of an included file. Anything else in its place is reported at the lexeme behind
it. -/
def includePath (last : Nat) : (ls : Lexemes) → ParseResult String ls
  | [] => .error (.endOfInput "include path")
  | l :: rest =>
    match l.token with
    | .string path => .ok (.one path l rest)
    | other => .error (.unexpected (nextLine last rest) "string literal" other.text)

/-- Takes `source -> target`. -/
def measurement (last : Nat) (ls : Lexemes) : ParseResult (Operand × Operand) ls := do
  let qubit ← operand last ls
  let arrow ← symbol .arrow qubit.rest
  let bit ← operand last arrow.rest
  return (qubit.after (arrow.after bit)).map (qubit.value, ·)

/-- Takes a statement without its semicolon. -/
def statementBody (last : Nat) : (ls : Lexemes) → ParseResult Statement ls
  | [] => .error (.endOfInput "statement")
  | l :: ls =>
    let body {α : Type} (build : α → Statement) (result : ParseResult α ls) :
        ParseResult Statement (l :: ls) :=
      result.map fun p => (p.map build).behind l
    match l.token with
    | .keyword .includes => body .includes (includePath last ls)
    | .keyword .qreg => body .qreg (registerDecl last ls)
    | .keyword .creg => body .creg (registerDecl last ls)
    | .keyword .measure => body (fun (q, b) => .measure q b) (measurement last ls)
    | .keyword .reset => body .reset (operand last ls)
    | .keyword .barrier => body .barrier (operands last ls)
    | .identifier name => body .gate (gateCall last l.line name ls)
    | other => .error (.unexpected l.line "statement" other.text)

/-- Takes a statement and its semicolon. -/
def statement (last : Nat) (ls : Lexemes) : ParseResult Statement ls := do
  let body ← statementBody last ls
  let close ← symbol .semicolon body.rest
  return (body.after close).map fun _ => body.value

/-- Takes statements to the end of the source. -/
def statements (last : Nat) : Lexemes → Except SyntaxError (List Statement)
  | [] => .ok []
  | l :: ls => do
    let first ← statement last (l :: ls)
    have : first.rest.length ≤ ls.length := Nat.le_of_lt_succ first.shorter
    return first.value :: (← statements last first.rest)
termination_by ls => ls.length

/-- Takes the version behind `OPENQASM`. A version is shown with one digit behind the point, and
what is shown must start with `2.`. -/
def version : (ls : Lexemes) → ParseResult String ls
  | [] => .error (.endOfInput "version number")
  | l :: rest =>
    let checked (text : String) : ParseResult String (l :: rest) :=
      if ['2', '.'].isPrefixOf text.toList then .ok (.one text l rest) else .error (.version text)
    match l.token with
    | .real value => checked value.renderTenths
    | .integer value => checked s!"{value}.0"
    | other => .error (.version other.text)

/-- Takes a whole program. -/
def program (last : Nat) (ls : Lexemes) : Except SyntaxError Program := do
  let head ← keyword .openqasm ls
  let version ← version head.rest
  let close ← symbol .semicolon version.rest
  return ⟨version.value, ← statements last close.rest⟩

/-- The lexemes with their tokens; the first lexeme without one is an error. -/
def tokens : List (Lexeme (Option Token)) → Except SyntaxError Lexemes
  | [] => .ok []
  | l :: ls =>
    match l.token with
    | none => .error (.invalidToken l.line (String.ofList l.text))
    | some t => do return { l with token := t } :: (← tokens ls)

end Parser

namespace Program

/-- Parses a source text. Lexical errors come before all others. -/
def parse (source : String) : Except SyntaxError Program := do
  let cs := source.toList
  let ls ← Parser.tokens (Lexeme.scan cs)
  Parser.program (1 + lineEnds cs) ls

end Program

end QubitRouting
