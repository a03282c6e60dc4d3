import QubitRouting.Proofs.Circuit.Positions

/-!
# Where errors are reported

Every error of the parser is about one lexeme, and most are reported on the line where that lexeme
starts. Two are not: what stands in the place of an included path, and an index that is too large,
are reported on the line of the lexeme behind (`Reported`). On one line this makes no difference.

The proof has one lemma for each parser. All of them are about one list of lexemes, that of the
whole source: a parser leaves a rest at the end of it, or reports an error about a lexeme in it
(`Leaves`).
-/

set_option autoImplicit false

namespace QubitRouting

namespace Parser

/-! ## Answers -/

/-- What the parser says about the lexemes `all`, in a source that ends on line `last`. -/
inductive Reported (last : Nat) (all : Lexemes) : SyntaxError → Prop where
  | token {l : Lexeme Token} {rest : Lexemes} {expected : String} (hl : l :: rest <:+ all)
      (hexpected : expected ≠ "string literal") :
      Reported last all (.unexpected l.line expected l.token.text)
  | path {k l : Lexeme Token} {rest : Lexemes} (hl : k :: l :: rest <:+ all)
      (hk : k.token = .keyword .includes) :
      Reported last all (.unexpected (nextLine last rest) "string literal" l.token.text)
  | index {l : Lexeme Token} {rest : Lexemes} {value : Nat} (hl : l :: rest <:+ all)
      (htoken : l.token = .integer value) (hlarge : indexLimit ≤ value) :
      Reported last all (.unsupported (nextLine last rest) (.index value))
  | word {l : Lexeme Token} {rest : Lexemes} {name : String} {what : Unsupported}
      (hl : l :: rest <:+ all) (htoken : l.token = .identifier name)
      (hwhat : what = .statement name ∨ ∃ count, what = .operands name count) :
      Reported last all (.unsupported l.line what)
  | endOfInput (wanted : String) : Reported last all (.endOfInput wanted)
  | version (text : String) : Reported last all (.version text)

/-- There is a value of this kind, or an error that is reported where errors are. -/
def Answers (last : Nat) (all : Lexemes) {α : Type} (P : α → Prop) : Except SyntaxError α → Prop
  | .ok a => P a
  | .error e => Reported last all e

/-- The parser leaves a rest of the lexemes. -/
abbrev Leaves (last : Nat) (all : Lexemes) {α : Type} {ls : Lexemes}
    (r : ParseResult α ls) : Prop :=
  Answers last all (fun p => p.rest <:+ all) r

section

variable {last : Nat} {all ls : Lexemes} {l : Lexeme Token}

theorem Answers.bind {α β : Type} {P : α → Prop} {Q : β → Prop} {x : Except SyntaxError α}
    {f : α → Except SyntaxError β} (hx : Answers last all P x)
    (hf : ∀ a, P a → Answers last all Q (f a)) : Answers last all Q (x >>= f) := by
  cases x with
  | error e => exact hx
  | ok a => exact hf a hx

theorem suffix_of_cons (h : l :: ls <:+ all) : ls <:+ all := (List.suffix_cons l ls).trans h

/-! ## One lexeme -/

theorem leaves_symbol (s : Symbol) (h : ls <:+ all) : Leaves last all (symbol s ls) := by
  cases ls with
  | nil => exact Reported.endOfInput _
  | cons l ls =>
    rw [symbol]
    split
    · exact suffix_of_cons h
    · exact Reported.token h (by cases s <;> decide)

theorem leaves_keyword (k : Keyword) (h : ls <:+ all) : Leaves last all (keyword k ls) := by
  cases ls with
  | nil => exact Reported.endOfInput _
  | cons l ls =>
    rw [keyword]
    split
    · exact suffix_of_cons h
    · exact Reported.token h (by cases k <;> decide)

theorem leaves_identifier (h : ls <:+ all) : Leaves last all (identifier ls) := by
  cases ls with
  | nil => exact Reported.endOfInput _
  | cons l ls =>
    rw [identifier]
    split
    · exact suffix_of_cons h
    · exact Reported.token h (by decide)

theorem leaves_index (h : ls <:+ all) : Leaves last all (index last ls) := by
  cases ls with
  | nil => exact Reported.endOfInput _
  | cons l ls =>
    rw [index]
    split
    · rename_i value hl
      split
      · exact suffix_of_cons h
      · rename_i hlarge
        exact Reported.index h hl (Nat.le_of_not_lt hlarge)
    · exact Reported.token h (by decide)

/-- The lexeme in the place of a path is known by the keyword before it. -/
theorem leaves_includePath (hl : l.token = .keyword .includes) (h : l :: ls <:+ all) :
    Leaves last all (includePath last ls) := by
  cases ls with
  | nil => exact Reported.endOfInput _
  | cons l' ls =>
    rw [includePath]
    split
    · exact suffix_of_cons (suffix_of_cons h)
    · exact Reported.path h hl

theorem leaves_version (h : ls <:+ all) : Leaves last all (version ls) := by
  cases ls with
  | nil => exact Reported.endOfInput _
  | cons l ls =>
    have hchecked (text : String) : Leaves last all
        (if ['2', '.'].isPrefixOf text.toList then .ok (.one text l ls)
          else .error (.version text) : ParseResult String (l :: ls)) := by
      split
      · exact suffix_of_cons h
      · exact Reported.version text
    simp only [version]
    split
    · exact hchecked _
    · exact hchecked _
    · exact Reported.version _

/-! ## Operands and parameters -/

theorem leaves_indexed (h : ls <:+ all) : Leaves last all (indexed last ls) := by
  rw [indexed]
  refine (leaves_identifier h).bind fun name hname => ?_
  split
  · rename_i l mid hmid
    rw [hmid] at hname
    split
    · refine (leaves_index (suffix_of_cons hname)).bind fun i hi => ?_
      exact (leaves_symbol .closeBracket hi).bind fun close hclose => hclose
    · rw [← hmid] at hname
      exact hname
  · exact hname

theorem leaves_operand (h : ls <:+ all) : Leaves last all (operand last ls) :=
  (leaves_indexed h).bind fun _ hrest => hrest

theorem leaves_registerDecl (h : ls <:+ all) : Leaves last all (registerDecl last ls) :=
  (leaves_indexed h).bind fun _ hrest => hrest

theorem leaves_operands {ls : Lexemes} (h : ls <:+ all) : Leaves last all (operands last ls) := by
  rw [operands]
  refine (leaves_operand h).bind fun first hfirst => ?_
  split
  · rename_i l mid hmid
    have hshorter : mid.length < ls.length := by
      have := first.shorter
      rw [hmid, List.length_cons] at this
      omega
    split
    · rw [hmid] at hfirst
      exact (leaves_operands (suffix_of_cons hfirst)).bind fun more hmore => hmore
    · exact hfirst
  · exact hfirst
termination_by ls.length

theorem leaves_parenthesised (depth : Nat) (h : ls <:+ all) :
    Leaves last all (parenthesised depth ls) := by
  induction ls generalizing depth with
  | nil => exact Reported.endOfInput _
  | cons l ls ih =>
    have hfurther (depth : Nat) : Leaves last all
        (do return ((← parenthesised depth ls).map (l :: ·)).behind l : ParseResult Lexemes
          (l :: ls)) :=
      (ih depth (suffix_of_cons h)).bind fun _ hrest => hrest
    simp only [parenthesised]
    split
    · exact hfurther _
    · split
      · exact suffix_of_cons h
      · exact hfurther _
    · rename_i hl
      have hreported : Reported last all (.unexpected l.line ")" l.token.text) :=
        .token h (by decide)
      rw [hl] at hreported
      exact hreported
    · exact hfurther _

theorem leaves_gateTail (h : ls <:+ all) : Leaves last all (gateTail last ls) := by
  have hplain : Leaves last all (gateTail.plain last ls) :=
    (leaves_operands h).bind fun _ hrest => hrest
  cases ls with
  | nil => exact hplain
  | cons l ls =>
    rw [gateTail]
    split
    · refine (leaves_parenthesised 0 (suffix_of_cons h)).bind fun inner hinner => ?_
      exact (leaves_operands hinner).bind fun ops hops => hops
    · exact hplain

/-! ## Statements and programs -/

theorem leaves_gateCall {name : String} (hl : l.token = .identifier name) (h : l :: ls <:+ all) :
    Leaves last all (gateCall last l.line name ls) := by
  rw [gateCall]
  split
  · exact Reported.word h hl (.inl rfl)
  · refine (leaves_gateTail (suffix_of_cons h)).bind fun tail htail => ?_
    dsimp only
    split
    · exact Reported.word h hl (.inr ⟨_, rfl⟩)
    · exact htail

theorem leaves_measurement (h : ls <:+ all) : Leaves last all (measurement last ls) := by
  rw [measurement]
  refine (leaves_operand h).bind fun qubit hqubit => ?_
  refine (leaves_symbol .arrow hqubit).bind fun arrow harrow => ?_
  exact (leaves_operand harrow).bind fun bit hbit => hbit

theorem Leaves.body {α : Type} {build : α → Statement} {r : ParseResult α ls}
    (h : Leaves last all r) :
    Leaves last all (r.map fun p => (p.map build).behind l : ParseResult Statement (l :: ls)) := by
  cases r with
  | error e => exact h
  | ok p => exact h

theorem leaves_statementBody (h : ls <:+ all) : Leaves last all (statementBody last ls) := by
  cases ls with
  | nil => exact Reported.endOfInput _
  | cons l ls =>
    have hls := suffix_of_cons h
    rw [statementBody]
    split
    case h_1 hl => exact (leaves_includePath hl h).body
    case h_2 => exact (leaves_registerDecl hls).body
    case h_3 => exact (leaves_registerDecl hls).body
    case h_4 => exact (leaves_measurement hls).body
    case h_5 => exact (leaves_operand hls).body
    case h_6 => exact (leaves_operands hls).body
    case h_7 name hl => exact (leaves_gateCall hl h).body
    case h_8 => exact Reported.token h (by decide)

theorem leaves_statement (h : ls <:+ all) : Leaves last all (statement last ls) := by
  rw [statement]
  refine (leaves_statementBody h).bind fun body hbody => ?_
  exact (leaves_symbol .semicolon hbody).bind fun close hclose => hclose

theorem answers_statements {ls : Lexemes} (h : ls <:+ all) :
    Answers last all (fun _ => True) (statements last ls) := by
  cases ls with
  | nil =>
    rw [statements]
    trivial
  | cons l ls =>
    rw [statements]
    refine (leaves_statement h).bind fun first hfirst => ?_
    have hshorter := first.shorter
    exact (answers_statements hfirst).bind fun _ _ => trivial
termination_by ls.length

/-- **All errors are reported in one of these ways.** -/
theorem answers_program (last : Nat) (all : Lexemes) :
    Answers last all (fun _ => True) (program last all) := by
  rw [program]
  refine (leaves_keyword .openqasm (List.suffix_refl all)).bind fun head hhead => ?_
  refine (leaves_version hhead).bind fun number hnumber => ?_
  refine (leaves_symbol .semicolon hnumber).bind fun close hclose => ?_
  exact (answers_statements hclose).bind fun _ _ => trivial

/-- A lexeme without a token is an error of its own. -/
theorem eq_invalidToken_of_tokens {found : List (Lexeme (Option Token))} {e : SyntaxError}
    (h : tokens found = .error e) : ∃ line text, e = .invalidToken line text := by
  induction found with
  | nil => cases h
  | cons l found ih =>
    rw [tokens] at h
    split at h
    · exact ⟨_, _, (Except.error.inj h).symm⟩
    · rcases bind_eq_error_iff.mp h with h | ⟨ls, -, h⟩
      · exact ih h
      · cases h

end

end Parser

/-! ## Lines of the source -/

namespace Lexeme

variable {source : List Char} {all : Lexemes}

/-- The byte at which the lexemes start, or the end of the source where there are none. -/
def startOf (source : List Char) : Lexemes → Nat
  | [] => byteLength source
  | l :: _ => l.start

theorem InSource.line_of_suffix {l : Lexeme Token} {rest : Lexemes} (h : InSource source all)
    (hl : l :: rest <:+ all) : l.line = lineOf source l.start := by
  obtain ⟨front, rfl⟩ := hl
  exact h.of_append.2.line_eq

theorem InSource.nextLine_of_suffix {rest : Lexemes} (h : InSource source all)
    (hrest : rest <:+ all) :
    Parser.nextLine (1 + lineEnds source) rest = lineOf source (startOf source rest) := by
  cases rest with
  | nil =>
    have hend := lineOf_append source []
    rw [List.append_nil] at hend
    exact hend.symm
  | cons l rest => exact h.line_of_suffix hrest

end Lexeme

namespace Program

theorem reported_of_parse {source : String} {e : SyntaxError} (h : parse source = .error e)
    (hvalid : ∀ line text, e ≠ .invalidToken line text) :
    ∃ all, Parser.tokens (Lexeme.scan source.toList) = .ok all ∧ Lexeme.InSource source.toList all ∧
      Parser.Reported (1 + lineEnds source.toList) all e := by
  rcases bind_eq_error_iff.mp h with h | ⟨all, htokens, h⟩
  · obtain ⟨line, text, rfl⟩ := Parser.eq_invalidToken_of_tokens h
    exact absurd rfl (hvalid line text)
  · have hanswer := Parser.answers_program (1 + lineEnds source.toList) all
    rw [h] at hanswer
    exact ⟨all, htokens, Lexeme.inSource_of_tokens htokens, hanswer⟩

/-- **Where errors are reported.** An unexpected token is reported on the line where it starts,
unless it stands in the place of an included path. That one, like an index that is too large, is
reported on the line where the next lexeme starts, or where the source ends. What is unsupported for
its first word is reported on the line of that word. -/
theorem parse_error_lines (source : String) :
    (∀ line expected found, parse source = .error (.unexpected line expected found) →
      ∃ before l after, Parser.tokens (Lexeme.scan source.toList) = .ok (before ++ l :: after) ∧
        l.token.text = found ∧
        (expected ≠ "string literal" ∧ line = lineOf source.toList l.start ∨
          expected = "string literal" ∧
          (∃ k, before.getLast? = some k ∧ k.token = .keyword .includes) ∧
            line = lineOf source.toList (Lexeme.startOf source.toList after))) ∧
    (∀ line value, parse source = .error (.unsupported line (.index value)) →
      ∃ before l after, Parser.tokens (Lexeme.scan source.toList) = .ok (before ++ l :: after) ∧
        l.token = .integer value ∧ Parser.indexLimit ≤ value ∧
        line = lineOf source.toList (Lexeme.startOf source.toList after)) ∧
    ∀ line word what, what = .statement word ∨ (∃ count, what = .operands word count) →
      parse source = .error (.unsupported line what) →
      ∃ before l after, Parser.tokens (Lexeme.scan source.toList) = .ok (before ++ l :: after) ∧
        l.token = .identifier word ∧ line = lineOf source.toList l.start := by
  refine ⟨fun line expected found h => ?_, fun line value h => ?_, fun line word what hwhat h => ?_⟩
  · obtain ⟨all, htokens, hsource, hreported⟩ := reported_of_parse h (by simp)
    cases hreported with
    | @token l rest _ hl hexpected =>
      have hline := hsource.line_of_suffix hl
      obtain ⟨before, rfl⟩ := hl
      exact ⟨before, l, rest, htokens, rfl, .inl ⟨hexpected, hline⟩⟩
    | @path k l rest hl hk =>
      have hline := hsource.nextLine_of_suffix (Parser.suffix_of_cons (Parser.suffix_of_cons hl))
      obtain ⟨before, rfl⟩ := hl
      refine ⟨before ++ [k], l, rest, by simpa using htokens, rfl, .inr ⟨rfl, ⟨k, ?_, hk⟩, hline⟩⟩
      exact List.getLast?_concat
  · obtain ⟨all, htokens, hsource, hreported⟩ := reported_of_parse h (by simp)
    cases hreported with
    | @index l rest _ hl htoken hlarge =>
      have hline := hsource.nextLine_of_suffix (Parser.suffix_of_cons hl)
      obtain ⟨before, rfl⟩ := hl
      exact ⟨before, l, rest, htokens, htoken, hlarge, hline⟩
    | word _ _ hname => simp at hname
  · obtain ⟨all, htokens, hsource, hreported⟩ := reported_of_parse h (by simp)
    cases hreported with
    | index => simp at hwhat
    | @word l rest name _ hl htoken hname =>
      have hline := hsource.line_of_suffix hl
      have hword : name = word := by
        rcases hname with rfl | ⟨count, rfl⟩
        · simpa using hwhat
        · simpa using hwhat
      obtain ⟨before, rfl⟩ := hl
      exact ⟨before, l, rest, htokens, hword ▸ htoken, hline⟩

/-- A semicolon that is missing behind a statement of two lines, an index at the end of the source,
and a definition. -/
theorem parse_error_lines_missing :
    (∃ before l after, Parser.tokens (Lexeme.scan "OPENQASM 2.0;\nh\n q\n5".toList) =
        .ok (before ++ l :: after) ∧ l.token.text = "5" ∧
        lineOf "OPENQASM 2.0;\nh\n q\n5".toList l.start = 4) ∧
      (∃ before l after, Parser.tokens (Lexeme.scan "OPENQASM 2.0;\nh q[4294967296\n".toList) =
        .ok (before ++ l :: after) ∧ l.token = .integer 4294967296 ∧
        lineOf "OPENQASM 2.0;\nh q[4294967296\n".toList
          (Lexeme.startOf "OPENQASM 2.0;\nh q[4294967296\n".toList after) = 3) ∧
      ∃ before l after, Parser.tokens (Lexeme.scan "OPENQASM 2.0;\ngate\n".toList) =
        .ok (before ++ l :: after) ∧ l.token = .identifier "gate" ∧
        lineOf "OPENQASM 2.0;\ngate\n".toList l.start = 2 := by
  refine ⟨?_, ?_, ?_⟩
  · have hparse : parse "OPENQASM 2.0;\nh\n q\n5" = .error (.unexpected 4 ";" "5") := by
      decide +kernel
    obtain ⟨before, l, after, htokens, htext, ⟨-, hline⟩ | ⟨habsurd, -⟩⟩ :=
      (parse_error_lines _).1 _ _ _ hparse
    · exact ⟨before, l, after, htokens, htext, hline.symm⟩
    · exact absurd habsurd (by decide)
  · have hparse :
        parse "OPENQASM 2.0;\nh q[4294967296\n" = .error (.unsupported 3 (.index 4294967296)) := by
      decide +kernel
    obtain ⟨before, l, after, htokens, htoken, -, hline⟩ := (parse_error_lines _).2.1 _ _ hparse
    exact ⟨before, l, after, htokens, htoken, hline.symm⟩
  · have hparse : parse "OPENQASM 2.0;\ngate\n" = .error (.unsupported 2 (.statement "gate")) := by
      decide +kernel
    obtain ⟨before, l, after, htokens, htoken, hline⟩ :=
      (parse_error_lines _).2.2 _ "gate" _ (.inl rfl) hparse
    exact ⟨before, l, after, htokens, htoken, hline.symm⟩

/-- A number in the place of a path, and an index that is too large, are reported one line too
late. -/
theorem parse_error_line_late :
    (parse "OPENQASM 2.0;\ninclude 5\n;" = .error (.unexpected 3 "string literal" "5") ∧
      ∀ l ∈ Lexeme.scan "OPENQASM 2.0;\ninclude 5\n;".toList, l.token.map (·.text) = some "5" →
        lineOf "OPENQASM 2.0;\ninclude 5\n;".toList l.start = 2) ∧
      parse "OPENQASM 2.0;\nqreg q[4294967296\n];" = .error (.unsupported 3 (.index 4294967296)) ∧
        ∀ l ∈ Lexeme.scan "OPENQASM 2.0;\nqreg q[4294967296\n];".toList,
          l.token = some (.integer 4294967296) →
            lineOf "OPENQASM 2.0;\nqreg q[4294967296\n];".toList l.start = 2 := by
  decide +kernel

end Program

end QubitRouting
