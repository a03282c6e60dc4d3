import QubitRouting.Proofs.Circuit.Grammar
import QubitRouting.Proofs.Circuit.Positions

/-!
# Derivations of programs

The language as its users know it: which sequences of lexemes are statements and programs, and which
syntax trees they stand for. Nothing here looks ahead, counts parentheses or knows how a parser goes
about its work. Parentheses nest (`Nested`), the line of a gate is where its name stands in the
source, and its parameters are a piece of the source.

**A source parses to a program exactly if its lexemes derive that program**, and lexemes that are no
tokens are reported before all else (`parse_derives`). The proof goes through the answers of the
parsers, `Parser.StatementAt` and its kin: behind a statement stands a semicolon, and so the
parsers' looking ahead never matters.
-/

set_option autoImplicit false

namespace QubitRouting

namespace Grammar

/-! ## The rules -/

/-- Tokens with matching parentheses, and without semicolons. -/
inductive Nested : List Token → Prop where
  | nil : Nested []
  | token {t : Token} {ts : List Token} (hopen : t ≠ .symbol .openParen)
      (hclose : t ≠ .symbol .closeParen) (hend : t ≠ .symbol .semicolon) (h : Nested ts) :
      Nested (t :: ts)
  | group {inner ts : List Token} (hinner : Nested inner) (h : Nested ts) :
      Nested (.symbol .openParen :: (inner ++ .symbol .closeParen :: ts))

/-- The parameters between parentheses: all text from the first lexeme to the last. -/
inductive ParamsOf (source : List Char) : Lexemes → Option String → Prop where
  | empty : ParamsOf source [] none
  | text {inner : Lexemes} {first last : Lexeme Token} {params : String}
      (hfirst : inner.head? = some first) (hlast : inner.getLast? = some last)
      (h : Slice source first.start last.stop params.toList) : ParamsOf source inner (some params)

/-- What may stand between the name of a gate and its operands. -/
inductive Arguments (source : List Char) : Lexemes → Option String → Prop where
  | absent : Arguments source [] none
  | parenthesised {l close : Lexeme Token} {inner : Lexemes} {params : Option String}
      (hl : l.token = .symbol .openParen) (hinner : Nested (inner.map (·.token)))
      (hclose : close.token = .symbol .closeParen) (h : ParamsOf source inner params) :
      Arguments source (l :: (inner ++ [close])) params

/-- The statements that start with a keyword: which one, and the tokens between it and the
semicolon. -/
inductive Keyed : Statement → Keyword → List Token → Prop where
  | includes (path : String) : Keyed (.includes path) .includes [.string path]
  | qreg {o : Operand} (ho : o.InRange) :
      Keyed (.qreg ⟨o.register, o.index.getD 1⟩) .qreg o.tokens
  | creg {o : Operand} (ho : o.InRange) :
      Keyed (.creg ⟨o.register, o.index.getD 1⟩) .creg o.tokens
  | measure {q b : Operand} (hq : q.InRange) (hb : b.InRange) :
      Keyed (.measure q b) .measure (q.tokens ++ .symbol .arrow :: b.tokens)
  | reset {q : Operand} (hq : q.InRange) : Keyed (.reset q) .reset q.tokens
  | barrier {os : List Operand} (hne : os ≠ []) (hos : ∀ o ∈ os, o.InRange) :
      Keyed (.barrier os) .barrier (Operand.listTokens os)

/-- The lexemes are the statement, with its semicolon. -/
inductive Derives (source : List Char) : Statement → Lexemes → Prop where
  | keyed {st : Statement} {k : Keyword} {ts : List Token} {ls : Lexemes} (hst : Keyed st k ts)
      (h : ls.map (·.token) = .keyword k :: (ts ++ [.symbol .semicolon])) : Derives source st ls
  | gate {g : GateCall} {l : Lexeme Token} {arguments ls : Lexemes}
      (hname : l.token = .identifier g.name) (hword : g.name ∉ ["gate", "opaque", "if"])
      (hline : g.line = lineOf source l.start) (harguments : Arguments source arguments g.params)
      (hcount : g.operands.length = 1 ∨ g.operands.length = 2) (hos : ∀ o ∈ g.operands, o.InRange)
      (h : ls.map (·.token) = Operand.listTokens g.operands ++ [.symbol .semicolon]) :
      Derives source (.gate g) (l :: (arguments ++ ls))

/-- The lexemes are the program: a version that is accepted, and the statements. -/
inductive DerivesProgram (source : List Char) : Program → Lexemes → Prop where
  | intro {p : Program} {number : Token} {head : Lexemes} {parts : List Lexemes}
      (hhead : head.map (·.token) = [.keyword .openqasm, number, .symbol .semicolon])
      (hversion : Parser.versionText number = some p.version)
      (hsupported : Parser.Supported p.version)
      (hstatements : List.Forall₂ (Derives source) p.statements parts) :
      DerivesProgram source p (head ++ parts.flatten)

/-! ## Parentheses -/

theorem balanced_token {t : Token} {ts : List Token} {depth : Nat} (hopen : t ≠ .symbol .openParen)
    (hclose : t ≠ .symbol .closeParen) (hend : t ≠ .symbol .semicolon) :
    Parser.Balanced depth (t :: ts) ↔ Parser.Balanced depth ts := by
  rw [Parser.Balanced]
  all_goals assumption

/-- A first token opens a parenthesis, closes one or is any other but a semicolon. -/
theorem cases_of_balanced {t : Token} {ts : List Token} {depth : Nat}
    (h : Parser.Balanced depth (t :: ts)) :
    t = .symbol .openParen ∧ Parser.Balanced (depth + 1) ts ∨
      (t = .symbol .closeParen ∧ ∃ d, depth = d + 1 ∧ Parser.Balanced d ts) ∨
      t ≠ .symbol .openParen ∧ t ≠ .symbol .closeParen ∧ t ≠ .symbol .semicolon ∧
        Parser.Balanced depth ts := by
  by_cases hopen : t = .symbol .openParen
  · subst hopen
    rw [Parser.Balanced] at h
    exact .inl ⟨rfl, h⟩
  by_cases hclose : t = .symbol .closeParen
  · subst hclose
    rw [Parser.Balanced] at h
    obtain ⟨d, rfl⟩ := Nat.exists_eq_succ_of_ne_zero h.1
    exact .inr (.inl ⟨rfl, d, rfl, h.2⟩)
  by_cases hend : t = .symbol .semicolon
  · subst hend
    exact absurd h (by simp [Parser.Balanced])
  rw [balanced_token hopen hclose hend] at h
  exact .inr (.inr ⟨hopen, hclose, hend, h⟩)

/-- Tokens with matching parentheses do not change how many are open. -/
theorem Nested.balanced_append {inner ts : List Token} (h : Nested inner) {depth : Nat} :
    Parser.Balanced depth (inner ++ ts) ↔ Parser.Balanced depth ts := by
  induction h generalizing depth ts with
  | nil => exact Iff.rfl
  | token hopen hclose hend _ ih => rw [List.cons_append, balanced_token hopen hclose hend, ih]
  | group _ _ ihinner ih =>
    rw [List.cons_append, List.append_assoc, List.cons_append, Parser.Balanced, ihinner,
      Parser.Balanced, ih]
    simp

/-- Where a parenthesis is open, the one that closes it comes behind tokens with matching ones. -/
theorem exists_nested_of_balanced {ts : List Token} {depth : Nat}
    (h : Parser.Balanced (depth + 1) ts) :
    ∃ inner rest, ts = inner ++ .symbol .closeParen :: rest ∧ Nested inner ∧
      Parser.Balanced depth rest := by
  -- by the number of tokens, since what follows an inner group is no tail that a recursion reaches
  induction hn : ts.length using Nat.strongRecOn generalizing ts depth with
  | ind n ih =>
    subst hn
    cases ts with
    | nil => exact absurd h (by simp [Parser.Balanced])
    | cons t ts =>
      rcases cases_of_balanced h with ⟨rfl, hts⟩ | ⟨rfl, d, hd, hts⟩ | ⟨hopen, hclose, hend, hts⟩
      · obtain ⟨inner, rest, rfl, hinner, hrest⟩ := ih ts.length (by simp) hts rfl
        obtain ⟨inner', rest', rfl, hinner', hrest'⟩ := ih rest.length (by simp; omega) hrest rfl
        exact ⟨_, rest', by simp, hinner.group hinner', hrest'⟩
      · obtain rfl := Nat.succ.inj hd
        exact ⟨[], ts, rfl, .nil, hts⟩
      · obtain ⟨inner, rest, rfl, hinner, hrest⟩ := ih ts.length (by simp) hts rfl
        exact ⟨t :: inner, rest, rfl, .token hopen hclose hend hinner, hrest⟩

theorem nested_of_balanced {ts : List Token} (h : Parser.Balanced 0 ts) : Nested ts := by
  induction hn : ts.length using Nat.strongRecOn generalizing ts with
  | ind n ih =>
    subst hn
    cases ts with
    | nil => exact .nil
    | cons t ts =>
      rcases cases_of_balanced h with ⟨rfl, hts⟩ | ⟨rfl, d, hd, hts⟩ | ⟨hopen, hclose, hend, hts⟩
      · obtain ⟨inner, rest, rfl, hinner, hrest⟩ := exists_nested_of_balanced hts
        exact hinner.group (ih rest.length (by simp; omega) hrest rfl)
      · cases hd
      · exact .token hopen hclose hend (ih ts.length (by simp) hts rfl)

/-- **Counting finds exactly the parentheses that match.** -/
theorem balanced_iff_nested {ts : List Token} : Parser.Balanced 0 ts ↔ Nested ts := by
  refine ⟨nested_of_balanced, fun h => ?_⟩
  rw [← List.append_nil ts, h.balanced_append, Parser.Balanced]

/-! ## Gates -/

variable {source : List Char} {ls rest : Lexemes}

/-- What the parser keeps of the parentheses is the piece of the source. -/
theorem paramsOf_iff {inner : Lexemes} (h : Lexeme.InSource source inner) {params : Option String} :
    ParamsOf source inner params ↔ Parser.paramsOf inner = params := by
  constructor
  · intro hparams
    cases hparams with
    | empty => rfl
    | @text _ first last params hfirst hlast hslice =>
      have hne : ¬inner.isEmpty := by
        intro hempty
        rw [List.isEmpty_iff.mp hempty] at hfirst
        cases hfirst
      rw [Parser.paramsOf, if_neg hne, Option.some.injEq,
        (h.slice_span hfirst hlast).unique hslice, String.ofList_toList]
  · rintro rfl
    cases inner with
    | nil => exact .empty
    | cons l inner =>
      obtain ⟨last, hlast⟩ : ∃ last, (l :: inner).getLast? = some last :=
        ⟨_, List.getLast?_eq_some_getLast (List.cons_ne_nil l inner)⟩
      refine .text rfl hlast ?_
      rw [String.toList_ofList]
      exact h.slice_span rfl hlast

/-- Before a semicolon, what follows the name of a gate is arguments and operands. -/
theorem tailAt_iff {close : Lexeme Token} (hclose : close.token = .symbol .semicolon)
    (h : Lexeme.InSource source ls) {params : Option String} {os : List Operand} :
    Parser.TailAt params os ls (close :: rest) ↔
      ∃ arguments ops, ls = arguments ++ (ops ++ close :: rest) ∧
      Arguments source arguments params ∧
        os ≠ [] ∧ (∀ o ∈ os, o.InRange) ∧ ops.map (·.token) = Operand.listTokens os := by
  constructor
  · intro htail
    cases htail with
    | plain hos =>
      obtain ⟨hne, hrange, ops, hls, hops⟩ := (Parser.operandsAt_iff hclose).mp hos
      exact ⟨[], ops, hls, .absent, hne, hrange, hops⟩
    | @params _ l close' inner ls' _ hl hinner hclose' hos =>
      obtain ⟨hne, hrange, ops, rfl, hops⟩ := (Parser.operandsAt_iff hclose).mp hos
      have hsource : Lexeme.InSource source inner := h.tail.of_append.1
      refine ⟨l :: (inner ++ [close']), ops, by simp, ?_, hne, hrange, hops⟩
      exact .parenthesised hl (balanced_iff_nested.mp hinner) hclose'
        ((paramsOf_iff hsource).mpr rfl)
  · rintro ⟨arguments, ops, rfl, hargs, hne, hrange, hops⟩
    have hos : Parser.OperandsAt os (ops ++ close :: rest) (close :: rest) :=
      (Parser.operandsAt_iff hclose).mpr ⟨hne, hrange, ops, rfl, hops⟩
    cases hargs with
    | absent => exact .plain hos
    | @parenthesised l close' inner _ hl hinner hclose' hparams =>
      have hsource : Lexeme.InSource source inner := h.of_append.1.tail.of_append.1
      have htail := Parser.TailAt.params hl (balanced_iff_nested.mpr hinner) hclose' hos
      rw [(paramsOf_iff hsource).mp hparams] at htail
      simpa using htail

/-! ## Statements -/

/-- Before what is no bracket, an operand is determined by its tokens. -/
theorem operandAt_iff {o : Operand} {l : Lexeme Token} (hl : l.token ≠ .symbol .openBracket) :
    Parser.OperandAt o ls (l :: rest) ↔ o.InRange ∧ Parser.Spells o.tokens ls (l :: rest) := by
  constructor
  · intro h
    exact ⟨h.inRange, h.spells⟩
  · rintro ⟨hrange, hspells⟩
    refine ⟨hrange, fun _ => ?_, hspells⟩
    rwa [Parser.starts_cons]

theorem operandAt_closed_iff {o : Operand} {close : Lexeme Token}
    (hclose : close.token = .symbol .semicolon) :
    Parser.OperandAt o ls (close :: rest) ↔ o.InRange ∧ Parser.Spells o.tokens ls (close :: rest) :=
  operandAt_iff (by rw [hclose]; simp)

/-- A first lexeme, the tokens of the body and a semicolon. -/
theorem spells_closed_iff {t : Token} {ts : List Token} :
    Parser.Spells (t :: (ts ++ [.symbol .semicolon])) ls rest ↔
      ∃ l mid close, ls = l :: mid ∧ l.token = t ∧ close.token = .symbol .semicolon ∧
        Parser.Spells ts mid (close :: rest) := by
  simp only [Parser.spells_cons, Parser.spells_append]
  constructor
  · rintro ⟨l, mid, rfl, hl, mid', hspells, close, mid'', rfl, hclose, hend⟩
    obtain rfl := Parser.spells_nil.mp hend
    exact ⟨l, mid, close, rfl, hl, hclose, hspells⟩
  · rintro ⟨l, mid, close, rfl, hl, hclose, hspells⟩
    exact ⟨l, mid, rfl, hl, close :: rest, hspells, close, rest, rfl, hclose,
      Parser.spells_nil.mpr rfl⟩

/-- What the parser takes before a semicolon is what a keyword says, or a gate. -/
theorem bodyAt_cases {st : Statement} {close : Lexeme Token}
    (hclose : close.token = .symbol .semicolon) (h : Parser.BodyAt st ls (close :: rest)) :
    (∃ l mid k ts, ls = l :: mid ∧ l.token = .keyword k ∧ Keyed st k ts ∧
        Parser.Spells ts mid (close :: rest)) ∨
      ∃ g l mid, st = .gate g ∧ ls = l :: mid ∧ l.token = .identifier g.name ∧ l.line = g.line ∧
        g.name ∉ Parser.unsupportedWords ∧ g.operands.length ≤ maxGateOperands ∧
        Parser.TailAt g.params g.operands mid (close :: rest) := by
  cases h with
  | includes hl h => exact .inl ⟨_, _, _, _, rfl, hl, .includes _, h⟩
  | qreg hl h =>
    obtain ⟨ho, hspells⟩ := (operandAt_closed_iff hclose).mp h
    exact .inl ⟨_, _, _, _, rfl, hl, .qreg ho, hspells⟩
  | creg hl h =>
    obtain ⟨ho, hspells⟩ := (operandAt_closed_iff hclose).mp h
    exact .inl ⟨_, _, _, _, rfl, hl, .creg ho, hspells⟩
  | measure hl hq harrow hb =>
    obtain ⟨hq, hqspells⟩ := (operandAt_iff (by rw [harrow]; simp)).mp hq
    obtain ⟨hb, hbspells⟩ := (operandAt_closed_iff hclose).mp hb
    exact .inl ⟨_, _, _, _, rfl, hl, .measure hq hb,
      hqspells.trans (Parser.spells_cons.mpr ⟨_, _, rfl, harrow, hbspells⟩)⟩
  | reset hl h =>
    obtain ⟨hq, hspells⟩ := (operandAt_closed_iff hclose).mp h
    exact .inl ⟨_, _, _, _, rfl, hl, .reset hq, hspells⟩
  | barrier hl h =>
    obtain ⟨hne, hos, hspells⟩ := (Parser.operandsAt_iff hclose).mp h
    exact .inl ⟨_, _, _, _, rfl, hl, .barrier hne hos, hspells⟩
  | gate hl hline hname hfew h => exact .inr ⟨_, _, _, rfl, rfl, hl, hline, hname, hfew, h⟩

theorem Keyed.bodyAt {st : Statement} {k : Keyword} {ts : List Token} (h : Keyed st k ts)
    {l close : Lexeme Token} (hl : l.token = .keyword k) (hclose : close.token = .symbol .semicolon)
    (hspells : Parser.Spells ts ls (close :: rest)) :
    Parser.BodyAt st (l :: ls) (close :: rest) := by
  cases h with
  | includes path => exact .includes hl hspells
  | qreg ho => exact .qreg hl ((operandAt_closed_iff hclose).mpr ⟨ho, hspells⟩)
  | creg ho => exact .creg hl ((operandAt_closed_iff hclose).mpr ⟨ho, hspells⟩)
  | measure hq hb =>
    obtain ⟨mid, hqspells, hmore⟩ := Parser.spells_append.mp hspells
    obtain ⟨arrow, mid, rfl, harrow, hbspells⟩ := Parser.spells_cons.mp hmore
    exact .measure hl ((operandAt_iff (by rw [harrow]; simp)).mpr ⟨hq, hqspells⟩) harrow
      ((operandAt_closed_iff hclose).mpr ⟨hb, hbspells⟩)
  | reset hq => exact .reset hl ((operandAt_closed_iff hclose).mpr ⟨hq, hspells⟩)
  | barrier hne hos => exact .barrier hl ((Parser.operandsAt_iff hclose).mpr ⟨hne, hos, hspells⟩)

/-- What the parser takes for a statement is derived. -/
theorem exists_derives {st : Statement} (hsource : Lexeme.InSource source ls)
    (h : Parser.StatementAt st ls rest) :
    ∃ front, ls = front ++ rest ∧ Derives source st front := by
  obtain ⟨close, hclose, hbody⟩ := h
  rcases bodyAt_cases hclose hbody with ⟨l, mid, k, ts, rfl, hl, hst, hspells⟩ |
    ⟨g, l, mid, rfl, rfl, hl, hline, hname, hfew, htail⟩
  · obtain ⟨front, hls, hfront⟩ := spells_closed_iff.mpr ⟨l, mid, close, rfl, hl, hclose, hspells⟩
    exact ⟨front, hls, .keyed hst hfront⟩
  · obtain ⟨arguments, ops, rfl, hargs, hne, hos, hops⟩ :=
      (tailAt_iff hclose hsource.tail).mp htail
    have hcount : g.operands.length = 1 ∨ g.operands.length = 2 := by
      have hpos := List.length_pos_iff.mpr hne
      rw [maxGateOperands] at hfew
      omega
    refine ⟨l :: (arguments ++ (ops ++ [close])), by simp, ?_⟩
    exact .gate hl hname (hline.symm.trans hsource.line_eq) hargs hcount hos
      (by simp [hops, hclose])

/-- What is derived is what the parser takes. -/
theorem Derives.statementAt {st : Statement} (h : Derives source st ls)
    (hsource : Lexeme.InSource source (ls ++ rest)) : Parser.StatementAt st (ls ++ rest) rest := by
  cases h with
  | keyed hst h =>
    have hspells : Parser.Spells _ (ls ++ rest) rest := ⟨ls, rfl, h⟩
    obtain ⟨l, mid, close, hls, hl, hclose, hspells⟩ := spells_closed_iff.mp hspells
    rw [hls]
    exact ⟨close, hclose, hst.bodyAt hl hclose hspells⟩
  | @gate g l arguments _ hname hword hline hargs hcount hos h =>
    obtain ⟨ops, last, rfl, hops, hlast⟩ := List.map_eq_append_iff.mp h
    obtain ⟨close, rfl, hclose⟩ := List.map_eq_singleton_iff.mp hlast
    have hls : l :: (arguments ++ (ops ++ [close])) ++ rest =
        l :: (arguments ++ (ops ++ close :: rest)) := by simp
    rw [hls] at hsource ⊢
    have hne : g.operands ≠ [] := by
      intro hnil
      simp [hnil] at hcount
    have hfew : g.operands.length ≤ maxGateOperands := by
      rw [maxGateOperands]
      omega
    have htail := (tailAt_iff hclose hsource.tail).mpr
      ⟨arguments, ops, rfl, hargs, hne, hos, hops⟩
    exact ⟨close, hclose, .gate hname (hsource.line_eq.trans hline.symm) hword hfew htail⟩

/-! ## Programs -/

theorem statementsAt_iff {sts : List Statement} (hsource : Lexeme.InSource source ls) :
    Parser.StatementsAt sts ls ↔
      ∃ parts, List.Forall₂ (Derives source) sts parts ∧ ls = parts.flatten := by
  constructor
  · intro h
    induction h with
    | nil => exact ⟨[], .nil, rfl⟩
    | cons h _ ih =>
      obtain ⟨front, rfl, hfront⟩ := exists_derives hsource h
      obtain ⟨parts, hparts, rfl⟩ := ih hsource.of_append.2
      exact ⟨front :: parts, .cons hfront hparts, rfl⟩
  · rintro ⟨parts, hparts, rfl⟩
    induction hparts with
    | nil => exact .nil
    | cons hfront _ ih =>
      rw [List.flatten_cons] at hsource ⊢
      exact .cons (hfront.statementAt hsource) (ih hsource.of_append.2)

theorem programAt_iff {p : Program} (hsource : Lexeme.InSource source ls) :
    Parser.ProgramAt p ls ↔ DerivesProgram source p ls := by
  constructor
  · intro h
    cases h with
    | @intro head number close ls hhead hversion hsupported hclose hstatements =>
      obtain ⟨parts, hparts, rfl⟩ := (statementsAt_iff hsource.tail.tail.tail).mp hstatements
      have hprogram : DerivesProgram source p ([head, number, close] ++ parts.flatten) :=
        .intro (by simp [hhead, hclose]) hversion hsupported hparts
      exact hprogram
  · intro h
    cases h with
    | @intro number head parts hhead hversion hsupported hparts =>
      have hrest := hsource.of_append.2
      simp only [List.map_eq_cons_iff, List.map_eq_nil_iff] at hhead
      obtain ⟨head, _, rfl, hhead, l, _, rfl, rfl, close, _, rfl, hclose, rfl⟩ := hhead
      exact .intro hhead hversion hsupported hclose
        ((statementsAt_iff hrest).mpr ⟨parts, hparts, rfl⟩)

/-- The first lexeme without a token is what is reported. -/
theorem tokens_eq_error {found : List (Lexeme (Option Token))} {l : Lexeme (Option Token)}
    (h : found.find? (·.token.isNone) = some l) :
    Parser.tokens found = .error (.invalidToken l.line (String.ofList l.text)) := by
  induction found with
  | nil => cases h
  | cons x found ih =>
    rw [Parser.tokens]
    cases hx : x.token with
    | none =>
      rw [List.find?_cons_of_pos (by simp [hx])] at h
      obtain rfl := Option.some.inj h
      rfl
    | some t =>
      rw [List.find?_cons_of_neg (by simp [hx])] at h
      rw [ih h]
      rfl

/-- **Parsing accepts exactly the language**: where every lexeme of a source is a token, the answer
is the program that these derive, if there is one; otherwise the first that is no token is reported
with its line. -/
theorem parse_derives (source : String) :
    (∀ ls : Lexemes, Lexeme.scan source.toList =
      ls.map (fun l => { l with token := some l.token }) →
        ∀ p, Program.parse source = .ok p ↔ DerivesProgram source.toList p ls) ∧
      ∀ l, (Lexeme.scan source.toList).find? (·.token.isNone) = some l →
        Program.parse source =
          .error (.invalidToken (lineOf source.toList l.start) (String.ofList l.text)) := by
  constructor
  · intro ls hscan p
    have htokens := Lexeme.tokens_eq_ok_iff.mpr hscan
    rw [← programAt_iff (Lexeme.inSource_of_tokens htokens), Program.parse_eq_ok_iff, htokens]
    simp
  · intro l hl
    have hline : l.line = lineOf source.toList l.start := by
      obtain ⟨-, before, after, hscan, -⟩ := List.find?_eq_some_iff_append.mp hl
      have hsource := Lexeme.inSource_scan source.toList
      rw [hscan] at hsource
      exact hsource.of_append.2.line_eq
    rw [Program.parse, tokens_eq_error hl, hline]
    rfl

/-- Parameters with parentheses, a comment and a line end in them, and a character of no token. -/
theorem parse_derives_nested :
    (∃ ls, Lexeme.scan "OPENQASM 2.0;\ncreg c;\n  u((a), // b\n -1) q[0],r;".toList =
          ls.map (fun l => { l with token := some l.token }) ∧
        DerivesProgram "OPENQASM 2.0;\ncreg c;\n  u((a), // b\n -1) q[0],r;".toList
          ⟨"2.0", [.creg ⟨"c", 1⟩,
            .gate ⟨"u", some "(a), // b\n -1", [⟨"q", some 0⟩, ⟨"r", none⟩], 3⟩]⟩ ls) ∧
      ∃ l, (Lexeme.scan "OPENQASM 2.0;\nx ?q;".toList).find? (·.token.isNone) = some l ∧
        Program.parse "OPENQASM 2.0;\nx ?q;" = .error (.invalidToken 2 "?") := by
  constructor
  · have hsome : (Parser.tokens (Lexeme.scan
        "OPENQASM 2.0;\ncreg c;\n  u((a), // b\n -1) q[0],r;".toList)).toOption.isSome = true := by
      decide +kernel
    obtain ⟨ls, hls⟩ := Option.isSome_iff_exists.mp hsome
    have hscan := Lexeme.tokens_eq_ok_iff.mp (toOption_eq_some_iff.mp hls)
    refine ⟨ls, hscan, ((parse_derives _).1 ls hscan _).mp (toOption_eq_some_iff.mp ?_)⟩
    decide +kernel
  · have hsome : ((Lexeme.scan "OPENQASM 2.0;\nx ?q;".toList).find? (·.token.isNone)).map
        (fun l => (lineOf "OPENQASM 2.0;\nx ?q;".toList l.start, l.text)) = some (2, ['?']) := by
      decide +kernel
    obtain ⟨l, hl, hplace⟩ := Option.map_eq_some_iff.mp hsome
    obtain ⟨hline, htext⟩ := Prod.mk.inj hplace
    refine ⟨l, hl, ?_⟩
    rw [(parse_derives _).2 l hl, hline, htext]

end Grammar

end QubitRouting
