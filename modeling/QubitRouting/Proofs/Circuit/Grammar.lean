import QubitRouting.Circuit.Parser
import QubitRouting.Proofs.Steps

/-!
# The grammar of programs

What the parsers accept, stated without them. `Takes r a rest` says that a parser has answered with
the value `a` and has left the lexemes `rest`, and for each parser a lemma says exactly when it does
so. Most of the language is determined by tokens alone (`Spells`). What is not, the parameters of a
gate and its line, depends on lexemes, which is why a statement is related to the lexemes that it is
written with (`StatementAt`). `takes_statement` is the main result: the parser of statements takes
exactly those.
-/

set_option autoImplicit false

namespace QubitRouting

namespace Operand

/-- The tokens of an operand. -/
def tokens (o : Operand) : List Token :=
  match o.index with
  | none => [.identifier o.register]
  | some i => [.identifier o.register, .symbol .openBracket, .integer i, .symbol .closeBracket]

theorem tokens_eq_cons (o : Operand) : ∃ ts, o.tokens = .identifier o.register :: ts := by
  unfold tokens
  cases o.index with
  | none => exact ⟨_, rfl⟩
  | some i => exact ⟨_, rfl⟩

/-- The index has 32 bits. -/
def InRange (o : Operand) : Prop := ∀ i, o.index = some i → i < Parser.indexLimit

/-- The tokens of operands with commas between them. -/
def listTokens : List Operand → List Token
  | [] => []
  | [o] => o.tokens
  | o :: os => o.tokens ++ .symbol .comma :: listTokens os

theorem listTokens_cons (o : Operand) (os : List Operand) :
    ∃ ts, listTokens (o :: os) = .identifier o.register :: ts := by
  obtain ⟨ts, hts⟩ := o.tokens_eq_cons
  cases os with
  | nil => exact ⟨ts, hts⟩
  | cons o' os => exact ⟨ts ++ .symbol .comma :: listTokens (o' :: os), by simp [listTokens, hts]⟩

theorem integer_mem_tokens_iff {o : Operand} {n : Nat} :
    .integer n ∈ o.tokens ↔ o.index = some n := by
  unfold tokens
  cases o.index <;> simp [eq_comm]

theorem semicolon_notMem_tokens (o : Operand) : .symbol .semicolon ∉ o.tokens := by
  unfold tokens
  cases o.index <;> simp

/-- The numbers among the tokens of operands are their indexes. -/
theorem integer_mem_listTokens_iff {os : List Operand} {n : Nat} :
    .integer n ∈ listTokens os ↔ ∃ o ∈ os, o.index = some n := by
  induction os using listTokens.induct with
  | case1 => simp [listTokens]
  | case2 o => simp [listTokens, integer_mem_tokens_iff]
  | case3 o os hos ih => simp [listTokens, integer_mem_tokens_iff, ih]

theorem semicolon_notMem_listTokens (os : List Operand) : .symbol .semicolon ∉ listTokens os := by
  induction os using listTokens.induct with
  | case1 => simp [listTokens]
  | case2 o => exact o.semicolon_notMem_tokens
  | case3 o os hos ih => simp [listTokens, semicolon_notMem_tokens, ih]

end Operand

namespace Parser

/-! ## Answers of parsers -/

/-- The parser answers with value `a` and leaves `rest`. -/
def Takes {α : Type} {ls : Lexemes} (r : ParseResult α ls) (a : α) (rest : Lexemes) : Prop :=
  ∃ p, r = .ok p ∧ p.value = a ∧ p.rest = rest

/-- The lexemes `ls` start with these tokens, and go on with `rest`. -/
def Spells (ts : List Token) (ls rest : Lexemes) : Prop :=
  ∃ front, ls = front ++ rest ∧ front.map (·.token) = ts

/-- The next lexeme is this symbol. -/
def Starts (s : Symbol) (ls : Lexemes) : Prop := ∃ l rest, ls = l :: rest ∧ l.token = .symbol s

section

variable {α β : Type} {ls ls' rest : Lexemes} {a : α} {b : β} {ts ts' : List Token} {t : Token}

@[simp] theorem takes_ok {p : Parsed α ls} :
    Takes (.ok p : ParseResult α ls) a rest ↔ p.value = a ∧ p.rest = rest := by
  constructor
  · intro ⟨p', hp, h⟩
    obtain rfl := Except.ok.inj hp
    exact h
  · intro h
    exact ⟨p, rfl, h⟩

@[simp] theorem takes_pure {p : Parsed α ls} :
    Takes (pure p : ParseResult α ls) a rest ↔ p.value = a ∧ p.rest = rest :=
  takes_ok

@[simp] theorem not_takes_error {e : SyntaxError} :
    ¬Takes (.error e : ParseResult α ls) a rest := by
  intro ⟨p, hp, _⟩
  cases hp

theorem takes_bind {x : ParseResult α ls'} {f : Parsed α ls' → ParseResult β ls} :
    Takes (x >>= f) b rest ↔ ∃ p, x = .ok p ∧ Takes (f p) b rest := by
  constructor
  · intro ⟨q, hq, h⟩
    obtain ⟨p, hp, hf⟩ := bind_eq_ok_iff.mp hq
    exact ⟨p, hp, q, hf, h⟩
  · intro ⟨p, hp, q, hf, h⟩
    exact ⟨q, bind_eq_ok_iff.mpr ⟨p, hp, hf⟩, h⟩

theorem Takes.unique {r : ParseResult α ls} {a a' : α} {rest' : Lexemes} (h : Takes r a rest)
    (h' : Takes r a' rest') : a = a' ∧ rest = rest' := by
  obtain ⟨p, hp, rfl, rfl⟩ := h
  obtain ⟨p', hp', rfl, rfl⟩ := h'
  obtain rfl := Except.ok.inj (hp.symm.trans hp')
  exact ⟨rfl, rfl⟩

theorem takes_of_eq_ok {r : ParseResult α ls} {p : Parsed α ls} (h : r = .ok p) :
    Takes r p.value p.rest :=
  ⟨p, h, rfl, rfl⟩

@[simp] theorem spells_nil : Spells [] ls rest ↔ ls = rest := by
  constructor
  · intro ⟨front, hls, hfront⟩
    rw [List.map_eq_nil_iff.mp hfront] at hls
    exact hls
  · intro h
    exact ⟨[], h, rfl⟩

/-- Lexemes that start with one token and go on with others. -/
theorem spells_cons :
    Spells (t :: ts) ls rest ↔ ∃ l mid, ls = l :: mid ∧ l.token = t ∧ Spells ts mid rest := by
  constructor
  · intro ⟨front, hls, hfront⟩
    obtain ⟨l, front, rfl, hl, hfront⟩ := List.map_eq_cons_iff.mp hfront
    exact ⟨l, front ++ rest, hls, hl, front, rfl, hfront⟩
  · intro ⟨l, mid, hls, hl, front, hmid, hfront⟩
    refine ⟨l :: front, ?_, ?_⟩
    · rw [hls, hmid]
      rfl
    · rw [List.map_cons, hl, hfront]

theorem spells_append :
    Spells (ts ++ ts') ls rest ↔ ∃ mid, Spells ts ls mid ∧ Spells ts' mid rest := by
  induction ts generalizing ls with
  | nil => simp
  | cons t ts ih =>
    simp only [List.cons_append, spells_cons, ih]
    constructor
    · intro ⟨l, mid, hls, hl, mid', h, h'⟩
      exact ⟨mid', ⟨l, mid, hls, hl, h⟩, h'⟩
    · intro ⟨mid', ⟨l, mid, hls, hl, h⟩, h'⟩
      exact ⟨l, mid, hls, hl, mid', h, h'⟩

theorem Spells.trans {mid : Lexemes} (h : Spells ts ls mid) (h' : Spells ts' mid rest) :
    Spells (ts ++ ts') ls rest :=
  spells_append.mpr ⟨mid, h, h'⟩

theorem spells_one : Spells [t] ls rest ↔ ∃ l, ls = l :: rest ∧ l.token = t := by
  simp only [spells_cons, spells_nil]
  constructor
  · intro ⟨l, mid, hls, hl, hmid⟩
    exact ⟨l, hmid ▸ hls, hl⟩
  · intro ⟨l, hls, hl⟩
    exact ⟨l, rest, hls, hl, rfl⟩

@[simp] theorem spells_one_cons {l : Lexeme Token} :
    Spells [t] (l :: ls) rest ↔ l.token = t ∧ ls = rest := by
  simp [spells_cons, and_comm]

@[simp] theorem not_spells_cons_nil : ¬Spells (t :: ts) [] rest := by
  simp [spells_cons]

end

/-! ## Single tokens -/

-- `n` is the line on which the source ends
variable {ls rest : Lexemes} {n : Nat}

theorem takes_symbol {s : Symbol} :
    Takes (symbol s ls) () rest ↔ Spells [.symbol s] ls rest := by
  cases ls with
  | nil => simp [symbol]
  | cons l ls =>
    rw [symbol, spells_one_cons]
    split
    · rename_i hl
      simp [Parsed.one, hl]
    · rename_i hl
      simp [hl]

theorem takes_keyword {k : Keyword} :
    Takes (keyword k ls) () rest ↔ Spells [.keyword k] ls rest := by
  cases ls with
  | nil => simp [keyword]
  | cons l ls =>
    rw [keyword, spells_one_cons]
    split
    · rename_i hl
      simp [Parsed.one, hl]
    · rename_i hl
      simp [hl]

theorem takes_identifier {name : String} :
    Takes (identifier ls) name rest ↔ Spells [.identifier name] ls rest := by
  cases ls with
  | nil => simp [identifier]
  | cons l ls =>
    rw [identifier, spells_one_cons]
    split
    · rename_i name' hl
      simp [Parsed.one, hl]
    · rename_i hl
      exact iff_of_false not_takes_error fun h => hl name h.1

theorem takes_index {i : Nat} :
    Takes (index n ls) i rest ↔ i < indexLimit ∧ Spells [.integer i] ls rest := by
  cases ls with
  | nil => simp [index]
  | cons l ls =>
    rw [index, spells_one_cons]
    split
    · rename_i value hl
      rw [hl, Token.integer.injEq]
      split
      · rename_i hlt
        simp only [takes_ok, Parsed.one]
        constructor
        · rintro ⟨hvalue, hrest⟩
          exact ⟨hvalue ▸ hlt, hvalue, hrest⟩
        · rintro ⟨_, hvalue, hrest⟩
          exact ⟨hvalue, hrest⟩
      · rename_i hge
        simp only [not_takes_error, false_iff]
        rintro ⟨hlt, hvalue, _⟩
        exact hge (hvalue ▸ hlt)
    · rename_i hl
      exact iff_of_false not_takes_error fun h => hl i h.2.1

theorem takes_includePath {path : String} :
    Takes (includePath n ls) path rest ↔ Spells [.string path] ls rest := by
  cases ls with
  | nil => simp [includePath]
  | cons l ls =>
    rw [includePath, spells_one_cons]
    split
    · rename_i path' hl
      simp [Parsed.one, hl]
    · rename_i hl
      exact iff_of_false not_takes_error fun h => hl path h.1

/-! ## Operands -/

theorem starts_cons {s : Symbol} {l : Lexeme Token} : Starts s (l :: ls) ↔ l.token = .symbol s := by
  constructor
  · intro ⟨l', ls', h, hl⟩
    obtain ⟨rfl, rfl⟩ := List.cons.inj h
    exact hl
  · intro hl
    exact ⟨l, ls, rfl, hl⟩

theorem not_starts_nil {s : Symbol} : ¬Starts s [] := by
  intro ⟨l, rest, h, _⟩
  cases h

/-- The lexemes start with an operand, all of it. -/
structure OperandAt (o : Operand) (ls rest : Lexemes) : Prop where
  inRange : o.InRange
  ends : o.index = none → ¬Starts .openBracket rest
  spells : Spells o.tokens ls rest

theorem takes_indexed {o : Operand} :
    Takes (indexed n ls) (o.register, o.index) rest ↔ OperandAt o ls rest := by
  obtain ⟨name, i?⟩ := o
  rw [indexed, takes_bind]
  constructor
  · rintro ⟨p, hp, h⟩
    have hname := takes_identifier.mp (takes_of_eq_ok hp)
    -- an operand without an index, before what is no bracket
    have hplain (hnot : ¬Starts .openBracket p.rest)
        (h : Takes (pure (p.map fun x => (x, none)) : ParseResult (String × Option Nat) ls)
          (name, i?) rest) :
        OperandAt ⟨name, i?⟩ ls rest := by
      obtain ⟨hvalue, rfl⟩ := takes_pure.mp h
      obtain ⟨rfl, rfl⟩ := Prod.mk.inj hvalue
      exact ⟨fun i hi => (by cases hi), fun _ => hnot, hname⟩
    split at h
    · rename_i l mid hmid
      split at h
      · rename_i hl
        obtain ⟨i, hi, h⟩ := takes_bind.mp h
        obtain ⟨close, hclose, h⟩ := takes_bind.mp h
        obtain ⟨hlt, hi⟩ := takes_index.mp (takes_of_eq_ok hi)
        have hclose := takes_symbol.mp (takes_of_eq_ok hclose)
        obtain ⟨hvalue, rfl⟩ := takes_pure.mp h
        obtain ⟨rfl, rfl⟩ := Prod.mk.inj hvalue
        have hopen : Spells [.symbol .openBracket] p.rest mid := spells_one.mpr ⟨l, hmid, hl⟩
        refine ⟨fun j hj => Option.some.inj hj ▸ hlt, fun h => (by cases h), ?_⟩
        exact hname.trans (hopen.trans (hi.trans hclose))
      · rename_i hl
        exact hplain (by rwa [hmid, starts_cons]) h
    · rename_i hmid
      exact hplain (by rw [hmid]; exact not_starts_nil) h
  · rintro ⟨hrange, hnot, hspells⟩
    cases i? with
    | none =>
      obtain ⟨p, hp, hvalue, hrest⟩ := takes_identifier.mpr hspells
      refine ⟨p, hp, ?_⟩
      have hmap : Takes (pure (p.map fun x => (x, none)) : ParseResult (String × Option Nat) ls)
          (name, none) rest :=
        takes_pure.mpr ⟨by rw [Parsed.map, hvalue], hrest⟩
      split
      · rename_i l mid hmid
        rw [if_neg]
        · exact hmap
        · rw [← @starts_cons mid, ← hmid, hrest]
          exact hnot rfl
      · exact hmap
    | some i =>
      have hparts : Spells ([.identifier name] ++ ([.symbol .openBracket] ++ ([.integer i] ++
          [.symbol .closeBracket]))) ls rest := hspells
      obtain ⟨mid, hname, hparts⟩ := spells_append.mp hparts
      obtain ⟨mid₁, hopen, hparts⟩ := spells_append.mp hparts
      obtain ⟨mid₂, hi, hclose⟩ := spells_append.mp hparts
      obtain ⟨p, hp, hvalue, hrest⟩ := takes_identifier.mpr hname
      refine ⟨p, hp, ?_⟩
      obtain ⟨l, rfl, hl⟩ := spells_one.mp hopen
      split
      · rename_i l' mid' hmid
        obtain ⟨rfl, rfl⟩ := List.cons.inj (hrest.symm.trans hmid)
        rw [if_pos hl]
        obtain ⟨pi, hpi, hivalue, hirest⟩ := takes_index.mpr ⟨hrange i rfl, hi⟩
        subst hirest
        obtain ⟨pc, hpc, -, hcrest⟩ := takes_symbol.mpr hclose
        refine takes_bind.mpr ⟨pi, hpi, takes_bind.mpr ⟨pc, hpc, takes_pure.mpr ⟨?_, hcrest⟩⟩⟩
        simp only [hvalue, hivalue]
      · rename_i hmid
        exact absurd (hrest.symm.trans hmid) (by simp)

theorem takes_operand {o : Operand} : Takes (operand n ls) o rest ↔ OperandAt o ls rest := by
  rw [← takes_indexed (n := n), operand, takes_bind]
  constructor
  · intro ⟨p, hp, h⟩
    obtain ⟨hvalue, hrest⟩ := takes_pure.mp h
    exact ⟨p, hp, by rw [← hvalue]; rfl, hrest⟩
  · intro ⟨p, hp, hvalue, hrest⟩
    refine ⟨p, hp, takes_pure.mpr ⟨?_, hrest⟩⟩
    rw [Parsed.map, hvalue]

theorem takes_registerDecl {d : RegisterDecl} :
    Takes (registerDecl n ls) d rest ↔
      ∃ o, OperandAt o ls rest ∧ d = ⟨o.register, o.index.getD 1⟩ := by
  simp only [← takes_indexed (n := n), registerDecl, takes_bind]
  constructor
  · intro ⟨p, hp, h⟩
    obtain ⟨hvalue, hrest⟩ := takes_pure.mp h
    exact ⟨⟨p.value.1, p.value.2⟩, ⟨p, hp, rfl, hrest⟩, hvalue.symm⟩
  · intro ⟨o, ⟨p, hp, hvalue, hrest⟩, hd⟩
    refine ⟨p, hp, takes_pure.mpr ⟨?_, hrest⟩⟩
    rw [Parsed.map, hvalue, hd]

/-- The lexemes start with operands that have commas between them, all of them. -/
inductive OperandsAt : List Operand → Lexemes → Lexemes → Prop where
  | one {o : Operand} {ls rest : Lexemes} (h : OperandAt o ls rest) (hend : ¬Starts .comma rest) :
      OperandsAt [o] ls rest
  | cons {o : Operand} {os : List Operand} {ls mid rest : Lexemes} {l : Lexeme Token}
      (h : OperandAt o ls (l :: mid)) (hl : l.token = .symbol .comma)
      (hos : OperandsAt os mid rest) :
      OperandsAt (o :: os) ls rest

theorem operandsAt_of_takes {n : Nat} {ls rest : Lexemes} {os : List Operand}
    (h : Takes (operands n ls) os rest) : OperandsAt os ls rest := by
  rw [operands, takes_bind] at h
  obtain ⟨p, hp, h⟩ := h
  have hfirst := takes_operand.mp (takes_of_eq_ok hp)
  have hone (hend : ¬Starts .comma p.rest)
      (h : Takes (pure (p.map fun o => [o]) : ParseResult (List Operand) ls) os rest) :
      OperandsAt os ls rest := by
    obtain ⟨rfl, rfl⟩ := takes_pure.mp h
    exact .one hfirst hend
  split at h
  · rename_i l mid hmid
    split at h
    · rename_i hl
      obtain ⟨more, hmore, h⟩ := takes_bind.mp h
      obtain ⟨rfl, rfl⟩ := takes_pure.mp h
      have : mid.length < ls.length := by
        have := p.shorter
        rw [hmid, List.length_cons] at this
        omega
      rw [hmid] at hfirst
      exact .cons hfirst hl (operandsAt_of_takes (takes_of_eq_ok hmore))
    · rename_i hl
      exact hone (by rwa [hmid, starts_cons]) h
  · rename_i hmid
    exact hone (by rw [hmid]; exact not_starts_nil) h
termination_by ls.length

theorem takes_of_operandsAt {os : List Operand} (h : OperandsAt os ls rest) :
    Takes (operands n ls) os rest := by
  induction h with
  | @one o ls rest ho hend =>
    rw [operands, takes_bind]
    obtain ⟨p, hp, hvalue, hrest⟩ := takes_operand.mpr ho
    refine ⟨p, hp, ?_⟩
    have hmap : Takes (pure (p.map fun o => [o]) : ParseResult (List Operand) ls) [o] rest :=
      takes_pure.mpr ⟨by rw [Parsed.map, hvalue], hrest⟩
    split
    · rename_i l mid hmid
      rw [if_neg]
      · exact hmap
      · rw [← @starts_cons mid, ← hmid, hrest]
        exact hend
    · exact hmap
  | @cons o os ls mid rest l ho hl hos ih =>
    rw [operands, takes_bind]
    obtain ⟨p, hp, hvalue, hrest⟩ := takes_operand.mpr ho
    refine ⟨p, hp, ?_⟩
    split
    · rename_i l' mid' hmid
      obtain ⟨rfl, rfl⟩ := List.cons.inj (hrest.symm.trans hmid)
      rw [if_pos hl]
      obtain ⟨more, hmore, hvalues, hend⟩ := ih
      exact takes_bind.mpr ⟨more, hmore, takes_pure.mpr ⟨by rw [hvalue, hvalues], hend⟩⟩
    · rename_i hmid
      exact absurd (hrest.symm.trans hmid) (by simp)

theorem takes_operands {os : List Operand} :
    Takes (operands n ls) os rest ↔ OperandsAt os ls rest :=
  ⟨operandsAt_of_takes, takes_of_operandsAt⟩

/-- Before a semicolon, operands are determined by their tokens. -/
theorem operandsAt_iff {os : List Operand} {l : Lexeme Token} (hl : l.token = .symbol .semicolon) :
    OperandsAt os ls (l :: rest) ↔
      os ≠ [] ∧ (∀ o ∈ os, o.InRange) ∧ Spells (Operand.listTokens os) ls (l :: rest) := by
  have hopen {s : Symbol} (hs : s ≠ .semicolon) : ¬Starts s (l :: rest) := by
    rw [starts_cons, hl]
    exact fun h => hs (Token.symbol.inj h).symm
  constructor
  · intro h
    generalize hrest : l :: rest = end' at h
    induction h with
    | one ho hend => exact ⟨by simp, by simpa using ho.inRange, ho.spells⟩
    | @cons o os ls mid rest' l' ho hl' hos ih =>
      obtain ⟨hne, hrange, hspells⟩ := ih hrest
      refine ⟨by simp, List.forall_mem_cons.mpr ⟨ho.inRange, hrange⟩, ?_⟩
      obtain ⟨o', os', rfl⟩ := List.exists_cons_of_ne_nil hne
      exact ho.spells.trans (spells_cons.mpr ⟨l', mid, rfl, hl', hspells⟩)
  · intro ⟨hne, hrange, hspells⟩
    induction os generalizing ls with
    | nil => exact absurd rfl hne
    | cons o os ih =>
      obtain ⟨ho, hrange⟩ := List.forall_mem_cons.mp hrange
      cases os with
      | nil => exact .one ⟨ho, fun _ => hopen (by decide), hspells⟩ (hopen (by decide))
      | cons o' os =>
        obtain ⟨mid, hfirst, hmore⟩ := spells_append.mp hspells
        obtain ⟨l', mid', rfl, hl', hmore⟩ := spells_cons.mp hmore
        refine .cons ⟨ho, fun _ => ?_, hfirst⟩ hl' (ih (by simp) hrange hmore)
        rw [starts_cons, hl']
        exact fun h => by cases h

/-! ## Gates -/

/-- What may stand in parentheses where `depth` more are open. -/
def Balanced : Nat → List Token → Prop
  | depth, [] => depth = 0
  | depth, .symbol .openParen :: ts => Balanced (depth + 1) ts
  | depth, .symbol .closeParen :: ts => depth ≠ 0 ∧ Balanced (depth - 1) ts
  | _, .symbol .semicolon :: _ => False
  | depth, _ :: ts => Balanced depth ts

/-- Behind a lexeme that does not close the parentheses. -/
theorem takes_parenthesised_cons {depth deeper : Nat} {l : Lexeme Token} {inner : Lexemes}
    (hbalanced : ∀ ts, Balanced depth (l.token :: ts) ↔ Balanced deeper ts)
    (hopen : l.token = .symbol .closeParen → depth ≠ 0)
    (ih : ∀ inner, Takes (parenthesised deeper ls) inner rest ↔
      Balanced deeper (inner.map (·.token)) ∧
        ∃ close, close.token = .symbol .closeParen ∧ ls = inner ++ close :: rest) :
    Takes (do return ((← parenthesised deeper ls).map (l :: ·)).behind l :
        ParseResult Lexemes (l :: ls)) inner rest ↔
      Balanced depth (inner.map (·.token)) ∧
        ∃ close, close.token = .symbol .closeParen ∧ l :: ls = inner ++ close :: rest := by
  rw [takes_bind]
  constructor
  · intro ⟨p, hp, h⟩
    obtain ⟨hvalue, hrest⟩ := takes_pure.mp h
    obtain ⟨hp, close, hclose, hls⟩ := (ih p.value).mp ⟨p, hp, rfl, hrest⟩
    subst hvalue
    exact ⟨(hbalanced _).mpr hp, close, hclose, congrArg (l :: ·) hls⟩
  · intro ⟨h, close, hclose, hls⟩
    cases inner with
    | nil =>
      obtain ⟨rfl, -⟩ := List.cons.inj hls
      exact absurd h (hopen hclose)
    | cons l' inner =>
      obtain ⟨rfl, hmore⟩ := List.cons.inj hls
      obtain ⟨p, hp, hvalue, hrest⟩ := (ih inner).mpr ⟨(hbalanced _).mp h, close, hclose, hmore⟩
      exact ⟨p, hp, takes_pure.mpr ⟨congrArg (l :: ·) hvalue, hrest⟩⟩

theorem takes_parenthesised {depth : Nat} {inner : Lexemes} :
    Takes (parenthesised depth ls) inner rest ↔
      Balanced depth (inner.map (·.token)) ∧
        ∃ close, close.token = .symbol .closeParen ∧ ls = inner ++ close :: rest := by
  induction ls generalizing depth inner with
  | nil => simp [parenthesised]
  | cons l ls ih =>
    simp only [parenthesised]
    split
    · rename_i hl
      refine takes_parenthesised_cons (fun ts => ?_) (fun h => ?_) fun _ => ih
      · rw [hl, Balanced]
      · cases hl.symm.trans h
    · rename_i hl
      split
      · rw [takes_ok]
        constructor
        · intro ⟨hinner, hrest⟩
          subst hinner hrest
          exact ⟨rfl, l, hl, rfl⟩
        · intro ⟨h, close, hclose, hls⟩
          cases inner with
          | nil => exact ⟨rfl, (List.cons.inj hls).2⟩
          | cons l' inner =>
            obtain ⟨rfl, -⟩ := List.cons.inj hls
            rw [List.map_cons, hl] at h
            exact absurd h (by simp [Balanced])
      · refine takes_parenthesised_cons (fun ts => ?_) (fun _ => Nat.succ_ne_zero _) fun _ => ih
        simp [hl, Balanced]
    · rename_i hl
      refine iff_of_false not_takes_error ?_
      intro ⟨h, close, hclose, hls⟩
      cases inner with
      | nil =>
        obtain ⟨rfl, -⟩ := List.cons.inj hls
        cases hl.symm.trans hclose
      | cons l' inner =>
        obtain ⟨rfl, -⟩ := List.cons.inj hls
        rw [List.map_cons, hl] at h
        exact absurd h (by simp [Balanced])
    · rename_i hopen hclose hend
      refine takes_parenthesised_cons (fun ts => ?_) (fun h => absurd h hclose) fun _ => ih
      rw [Balanced]
      all_goals assumption

/-- What is kept of the lexemes between a gate's parentheses. -/
def paramsOf (inner : Lexemes) : Option String :=
  if inner.isEmpty then none else some (String.ofList (Lexeme.span inner))

/-- The lexemes go on behind a gate's name with its parameters, if there are any, and its
operands. -/
inductive TailAt : Option String → List Operand → Lexemes → Lexemes → Prop where
  | plain {os : List Operand} {ls rest : Lexemes} (h : OperandsAt os ls rest) :
      TailAt none os ls rest
  | params {os : List Operand} {l close : Lexeme Token} {inner ls rest : Lexemes}
      (hl : l.token = .symbol .openParen) (hinner : Balanced 0 (inner.map (·.token)))
      (hclose : close.token = .symbol .closeParen) (h : OperandsAt os ls rest) :
      TailAt (paramsOf inner) os (l :: (inner ++ close :: ls)) rest

theorem OperandsAt.not_starts {os : List Operand} {s : Symbol} (h : OperandsAt os ls rest) :
    ¬Starts s ls := by
  have hfirst {o : Operand} {rest : Lexemes} (ho : OperandAt o ls rest) : ¬Starts s ls := by
    obtain ⟨ts, hts⟩ := o.tokens_eq_cons
    obtain ⟨l, mid, rfl, hl, -⟩ := spells_cons.mp (hts ▸ ho.spells)
    rw [starts_cons, hl]
    exact fun h => by cases h
  cases h with
  | one ho _ => exact hfirst ho
  | cons ho _ _ => exact hfirst ho

/-- Without a parenthesis there are no parameters. -/
theorem tailAt_plain_iff {params : Option String} {os : List Operand} (h : ¬Starts .openParen ls) :
    TailAt params os ls rest ↔ params = none ∧ OperandsAt os ls rest := by
  constructor
  · intro htail
    cases htail with
    | plain hos => exact ⟨rfl, hos⟩
    | params hl => exact absurd (starts_cons.mpr hl) h
  · rintro ⟨rfl, hos⟩
    exact .plain hos

/-- What stands in parentheses can be taken in one way only. -/
theorem tailAt_params_iff {params : Option String} {os : List Operand} {l close : Lexeme Token}
    {inner : Lexemes} (hl : l.token = .symbol .openParen)
    (hinner : Balanced 0 (inner.map (·.token))) (hclose : close.token = .symbol .closeParen) :
    TailAt params os (l :: (inner ++ close :: ls)) rest ↔
      params = paramsOf inner ∧ OperandsAt os ls rest := by
  constructor
  · intro htail
    generalize hls : l :: (inner ++ close :: ls) = all at htail
    cases htail with
    | plain hos =>
      subst hls
      exact absurd (starts_cons.mpr hl) hos.not_starts
    | @params _ _ close' inner' ls' _ _ hinner' hclose' hos =>
      have hmore := (List.cons.inj hls).2
      have htakes : Takes (parenthesised 0 (inner ++ close :: ls)) inner ls :=
        takes_parenthesised.mpr ⟨hinner, close, hclose, rfl⟩
      have htakes' := takes_parenthesised.mpr ⟨hinner', close', hclose', hmore⟩
      obtain ⟨rfl, rfl⟩ := htakes.unique htakes'
      exact ⟨rfl, hos⟩
  · rintro ⟨rfl, hos⟩
    exact .params hl hinner hclose hos

theorem takes_plain {params : Option String} {os : List Operand} :
    Takes (gateTail.plain n ls) (params, os) rest ↔ params = none ∧ OperandsAt os ls rest := by
  rw [gateTail.plain, takes_bind, ← takes_operands (n := n)]
  constructor
  · intro ⟨p, hp, h⟩
    obtain ⟨hvalue, hrest⟩ := takes_pure.mp h
    obtain ⟨hparams, hos⟩ := Prod.mk.inj hvalue
    exact ⟨hparams.symm, p, hp, hos, hrest⟩
  · intro ⟨hparams, p, hp, hos, hrest⟩
    exact ⟨p, hp, takes_pure.mpr ⟨Prod.ext hparams.symm hos, hrest⟩⟩

theorem takes_gateTail {params : Option String} {os : List Operand} :
    Takes (gateTail n ls) (params, os) rest ↔ TailAt params os ls rest := by
  have hplain (h : ¬Starts .openParen ls) :
      params = none ∧ OperandsAt os ls rest ↔ TailAt params os ls rest := by
    constructor
    · rintro ⟨hparams, hos⟩
      exact hparams ▸ .plain hos
    · intro ht
      cases ht with
      | plain hos => exact ⟨rfl, hos⟩
      | params hl => exact absurd (starts_cons.mpr hl) h
  cases ls with
  | nil => rw [gateTail, takes_plain, hplain not_starts_nil]
  | cons l ls =>
    rw [gateTail]
    split
    · rename_i hl
      rw [takes_bind]
      constructor
      · rintro ⟨inner, hinner, h⟩
        obtain ⟨ops, hops, h⟩ := takes_bind.mp h
        obtain ⟨hbalanced, close, hclose, hls⟩ :=
          takes_parenthesised.mp (takes_of_eq_ok hinner)
        have hos := takes_operands.mp (takes_of_eq_ok hops)
        obtain ⟨hvalue, rfl⟩ := takes_pure.mp h
        obtain ⟨rfl, rfl⟩ := Prod.mk.inj hvalue
        have htail := TailAt.params hl hbalanced hclose hos
        rwa [← hls] at htail
      · intro ht
        cases ht with
        | plain hos => exact absurd (starts_cons.mpr hl) hos.not_starts
        | @params _ _ close inner mid _ _ hbalanced hclose hos =>
          obtain ⟨p, hp, hinner, hrest⟩ :
              Takes (parenthesised 0 (inner ++ close :: mid)) inner mid :=
            takes_parenthesised.mpr ⟨hbalanced, close, hclose, rfl⟩
          rw [← hrest] at hos
          obtain ⟨ops, hops, hvalue, hend⟩ := takes_operands (n := n).mpr hos
          refine ⟨p, hp, takes_bind.mpr ⟨ops, hops, takes_pure.mpr ⟨?_, hend⟩⟩⟩
          exact Prod.ext (congrArg paramsOf hinner) hvalue
    · rename_i hl
      rw [takes_plain, hplain (by rwa [starts_cons])]

theorem takes_gateCall {line : Nat} {name : String} {g : GateCall} :
    Takes (gateCall n line name ls) g rest ↔
      g.name = name ∧ g.line = line ∧ name ∉ unsupportedWords ∧
        g.operands.length ≤ maxGateOperands ∧ TailAt g.params g.operands ls rest := by
  rw [gateCall]
  by_cases hname : name ∈ unsupportedWords
  · rw [if_pos hname]
    exact iff_of_false (fun ⟨_, h, _⟩ => by cases h) fun h => h.2.2.1 hname
  rw [if_neg hname]
  constructor
  · intro h
    obtain ⟨tail, htail, h⟩ := takes_bind.mp h
    have hos := takes_gateTail.mp (takes_of_eq_ok htail)
    simp only at h
    split at h
    · obtain ⟨_, h, _⟩ := h
      cases h
    · rename_i hfew
      obtain ⟨rfl, rfl⟩ := takes_pure.mp h
      exact ⟨rfl, rfl, hname, Nat.le_of_not_lt hfew, hos⟩
  · intro ⟨hgname, hline, _, hfew, htail⟩
    obtain ⟨tail, htail, hvalue, hrest⟩ := takes_gateTail (n := n).mpr htail
    refine takes_bind.mpr ⟨tail, htail, ?_⟩
    simp only [hvalue]
    rw [if_neg (Nat.not_lt_of_le hfew)]
    refine takes_pure.mpr ⟨?_, hrest⟩
    rw [← hgname, ← hline]
    rfl

/-! ## Statements -/

/-- The lexemes start with a statement, without its semicolon. -/
inductive BodyAt : Statement → Lexemes → Lexemes → Prop where
  | includes {path : String} {l : Lexeme Token} {ls rest : Lexemes}
      (hl : l.token = .keyword .includes) (h : Spells [.string path] ls rest) :
      BodyAt (.includes path) (l :: ls) rest
  | qreg {o : Operand} {l : Lexeme Token} {ls rest : Lexemes} (hl : l.token = .keyword .qreg)
      (h : OperandAt o ls rest) : BodyAt (.qreg ⟨o.register, o.index.getD 1⟩) (l :: ls) rest
  | creg {o : Operand} {l : Lexeme Token} {ls rest : Lexemes} (hl : l.token = .keyword .creg)
      (h : OperandAt o ls rest) : BodyAt (.creg ⟨o.register, o.index.getD 1⟩) (l :: ls) rest
  | measure {q b : Operand} {l arrow : Lexeme Token} {ls mid rest : Lexemes}
      (hl : l.token = .keyword .measure) (hq : OperandAt q ls (arrow :: mid))
      (harrow : arrow.token = .symbol .arrow) (hb : OperandAt b mid rest) :
      BodyAt (.measure q b) (l :: ls) rest
  | reset {q : Operand} {l : Lexeme Token} {ls rest : Lexemes} (hl : l.token = .keyword .reset)
      (h : OperandAt q ls rest) : BodyAt (.reset q) (l :: ls) rest
  | barrier {os : List Operand} {l : Lexeme Token} {ls rest : Lexemes}
      (hl : l.token = .keyword .barrier) (h : OperandsAt os ls rest) :
      BodyAt (.barrier os) (l :: ls) rest
  | gate {g : GateCall} {l : Lexeme Token} {ls rest : Lexemes} (hl : l.token = .identifier g.name)
      (hline : l.line = g.line) (hname : g.name ∉ unsupportedWords)
      (hfew : g.operands.length ≤ maxGateOperands) (h : TailAt g.params g.operands ls rest) :
      BodyAt (.gate g) (l :: ls) rest

/-- The lexemes start with a statement. -/
def StatementAt (st : Statement) (ls rest : Lexemes) : Prop :=
  ∃ close, close.token = .symbol .semicolon ∧ BodyAt st ls (close :: rest)

theorem takes_measurement {q b : Operand} :
    Takes (measurement n ls) (q, b) rest ↔
      ∃ arrow mid, arrow.token = .symbol .arrow ∧ OperandAt q ls (arrow :: mid) ∧
        OperandAt b mid rest := by
  rw [measurement, takes_bind]
  constructor
  · intro ⟨p, hp, h⟩
    obtain ⟨arrow, harrow, h⟩ := takes_bind.mp h
    obtain ⟨r, hr, h⟩ := takes_bind.mp h
    obtain ⟨hvalue, rfl⟩ := takes_pure.mp h
    obtain ⟨rfl, rfl⟩ := Prod.mk.inj hvalue
    have hq := takes_operand.mp (takes_of_eq_ok hp)
    obtain ⟨l, hmid, hl⟩ := spells_one.mp (takes_symbol.mp (takes_of_eq_ok harrow))
    rw [hmid] at hq
    exact ⟨l, arrow.rest, hl, hq, takes_operand.mp (takes_of_eq_ok hr)⟩
  · intro ⟨l, mid, hl, hq, hb⟩
    obtain ⟨p, hp, hqvalue, hqrest⟩ := takes_operand (n := n).mpr hq
    obtain ⟨arrow, harrow, -, hmid⟩ := takes_symbol.mpr (spells_one.mpr ⟨l, hqrest, hl⟩)
    rw [← hmid] at hb
    obtain ⟨r, hr, hbvalue, hbrest⟩ := takes_operand (n := n).mpr hb
    refine ⟨p, hp, takes_bind.mpr ⟨arrow, harrow, takes_bind.mpr ⟨r, hr, takes_pure.mpr ?_⟩⟩⟩
    exact ⟨Prod.ext hqvalue hbvalue, hbrest⟩

theorem takes_body {α : Type} {build : α → Statement} {r : ParseResult α ls} {l : Lexeme Token}
    {st : Statement} :
    Takes (r.map fun p => (p.map build).behind l : ParseResult Statement (l :: ls)) st rest ↔
      ∃ a, Takes r a rest ∧ build a = st := by
  cases r with
  | error e =>
    refine iff_of_false not_takes_error ?_
    intro ⟨a, h, _⟩
    exact not_takes_error h
  | ok p =>
    constructor
    · intro h
      obtain ⟨hst, hrest⟩ := takes_ok.mp h
      exact ⟨p.value, takes_ok.mpr ⟨rfl, hrest⟩, hst⟩
    · intro ⟨a, h, hst⟩
      obtain ⟨rfl, hrest⟩ := takes_ok.mp h
      exact takes_ok.mpr ⟨hst, hrest⟩

theorem bodyAt_of_takes {st : Statement} (h : Takes (statementBody n ls) st rest) :
    BodyAt st ls rest := by
  cases ls with
  | nil => exact absurd h not_takes_error
  | cons l ls =>
    rw [statementBody] at h
    split at h
    case h_1 hl =>
      obtain ⟨path, hbody, rfl⟩ := takes_body.mp h
      exact .includes hl (takes_includePath.mp hbody)
    case h_2 hl =>
      obtain ⟨d, hbody, rfl⟩ := takes_body.mp h
      obtain ⟨o, ho, rfl⟩ := takes_registerDecl.mp hbody
      exact .qreg hl ho
    case h_3 hl =>
      obtain ⟨d, hbody, rfl⟩ := takes_body.mp h
      obtain ⟨o, ho, rfl⟩ := takes_registerDecl.mp hbody
      exact .creg hl ho
    case h_4 hl =>
      obtain ⟨⟨q, b⟩, hbody, rfl⟩ := takes_body.mp h
      obtain ⟨arrow, mid, harrow, hq, hb⟩ := takes_measurement.mp hbody
      exact .measure hl hq harrow hb
    case h_5 hl =>
      obtain ⟨q, hbody, rfl⟩ := takes_body.mp h
      exact .reset hl (takes_operand.mp hbody)
    case h_6 hl =>
      obtain ⟨os, hbody, rfl⟩ := takes_body.mp h
      exact .barrier hl (takes_operands.mp hbody)
    case h_7 name hl =>
      obtain ⟨g, hbody, rfl⟩ := takes_body.mp h
      obtain ⟨rfl, hline, hname, hfew, htail⟩ := takes_gateCall.mp hbody
      exact .gate hl hline.symm hname hfew htail
    case h_8 => exact absurd h not_takes_error

theorem takes_of_bodyAt {st : Statement} (h : BodyAt st ls rest) :
    Takes (statementBody n ls) st rest := by
  cases h with
  | includes hl h =>
    simp only [statementBody, hl]
    exact takes_body.mpr ⟨_, takes_includePath.mpr h, rfl⟩
  | qreg hl h =>
    simp only [statementBody, hl]
    exact takes_body.mpr ⟨_, takes_registerDecl.mpr ⟨_, h, rfl⟩, rfl⟩
  | creg hl h =>
    simp only [statementBody, hl]
    exact takes_body.mpr ⟨_, takes_registerDecl.mpr ⟨_, h, rfl⟩, rfl⟩
  | @measure q b _ _ _ _ _ hl hq harrow hb =>
    simp only [statementBody, hl]
    exact takes_body.mpr ⟨(q, b), takes_measurement.mpr ⟨_, _, harrow, hq, hb⟩, rfl⟩
  | reset hl h =>
    simp only [statementBody, hl]
    exact takes_body.mpr ⟨_, takes_operand.mpr h, rfl⟩
  | barrier hl h =>
    simp only [statementBody, hl]
    exact takes_body.mpr ⟨_, takes_operands.mpr h, rfl⟩
  | gate hl hline hname hfew h =>
    simp only [statementBody, hl]
    exact takes_body.mpr ⟨_, takes_gateCall.mpr ⟨rfl, hline.symm, hname, hfew, h⟩, rfl⟩

/-- The parser of statements takes exactly the statements. -/
theorem takes_statement {st : Statement} :
    Takes (statement n ls) st rest ↔ StatementAt st ls rest := by
  rw [statement, takes_bind]
  constructor
  · intro ⟨p, hp, h⟩
    obtain ⟨close, hclose, h⟩ := takes_bind.mp h
    obtain ⟨rfl, rfl⟩ := takes_pure.mp h
    have hbody := bodyAt_of_takes (takes_of_eq_ok hp)
    obtain ⟨l, hmid, hl⟩ := spells_one.mp (takes_symbol.mp (takes_of_eq_ok hclose))
    rw [hmid] at hbody
    exact ⟨l, hl, hbody⟩
  · intro ⟨l, hl, hbody⟩
    obtain ⟨p, hp, hvalue, hrest⟩ := takes_of_bodyAt (n := n) hbody
    obtain ⟨close, hclose, -, hend⟩ := takes_symbol.mpr (spells_one.mpr ⟨l, hrest, hl⟩)
    exact ⟨p, hp, takes_bind.mpr ⟨close, hclose, takes_pure.mpr ⟨hvalue, hend⟩⟩⟩

/-- The lexemes are those of the statements. -/
inductive StatementsAt : List Statement → Lexemes → Prop where
  | nil : StatementsAt [] []
  | cons {st : Statement} {sts : List Statement} {ls rest : Lexemes} (h : StatementAt st ls rest)
      (hmore : StatementsAt sts rest) : StatementsAt (st :: sts) ls

theorem not_statementAt_nil {st : Statement} : ¬StatementAt st [] rest := by
  intro ⟨close, _, h⟩
  cases h

theorem statementsAt_of_eq_ok {n : Nat} {ls : Lexemes} {sts : List Statement}
    (h : statements n ls = .ok sts) : StatementsAt sts ls := by
  cases ls with
  | nil =>
    rw [statements] at h
    obtain rfl := Except.ok.inj h
    exact .nil
  | cons l ls =>
    rw [statements] at h
    obtain ⟨first, hfirst, h⟩ := bind_eq_ok_iff.mp h
    obtain ⟨more, hmore, h⟩ := bind_eq_ok_iff.mp h
    obtain rfl := Except.ok.inj h
    have := first.shorter
    exact .cons (takes_statement.mp (takes_of_eq_ok hfirst)) (statementsAt_of_eq_ok hmore)
termination_by ls.length

/-- A statement in front is taken, and the others remain. -/
theorem StatementAt.statements_eq_ok_iff {st : Statement} {sts : List Statement}
    (h : StatementAt st ls rest) :
    statements n ls = .ok sts ↔ ∃ more, statements n rest = .ok more ∧ sts = st :: more := by
  cases ls with
  | nil => exact absurd h not_statementAt_nil
  | cons l ls =>
    obtain ⟨p, hp, rfl, rfl⟩ := takes_statement.mpr h
    rw [statements, hp]
    constructor
    · intro h
      obtain ⟨first, hfirst, h⟩ := bind_eq_ok_iff.mp h
      obtain ⟨more, hmore, hsts⟩ := bind_eq_ok_iff.mp h
      obtain rfl := Except.ok.inj hfirst
      exact ⟨more, hmore, (Except.ok.inj hsts).symm⟩
    · rintro ⟨more, hmore, hsts⟩
      refine bind_eq_ok_iff.mpr ⟨p, rfl, bind_eq_ok_iff.mpr ⟨more, hmore, ?_⟩⟩
      exact congrArg Except.ok hsts.symm

theorem eq_ok_of_statementsAt {sts : List Statement} (h : StatementsAt sts ls) :
    statements n ls = .ok sts := by
  induction h with
  | nil => rw [statements]
  | cons h _ ih => exact h.statements_eq_ok_iff.mpr ⟨_, ih, rfl⟩

theorem statements_eq_ok_iff {sts : List Statement} :
    statements n ls = .ok sts ↔ StatementsAt sts ls :=
  ⟨statementsAt_of_eq_ok, eq_ok_of_statementsAt⟩

/-- A statement in front is the first one of every reading. -/
theorem StatementAt.statementsAt_iff {st : Statement} {sts : List Statement}
    (h : StatementAt st ls rest) :
    StatementsAt sts ls ↔ ∃ more, StatementsAt more rest ∧ sts = st :: more := by
  simp only [← Parser.statements_eq_ok_iff (n := 0)]
  exact h.statements_eq_ok_iff

/-! ## Programs -/

/-- The version that a number stands for, as it is shown. -/
def versionText : Token → Option String
  | .real value => some value.renderTenths
  | .integer value => some s!"{value}.0"
  | _ => none

/-- A version that is accepted. -/
def Supported (version : String) : Prop := ['2', '.'] <+: version.toList

theorem takes_version {v : String} :
    Takes (version ls) v rest ↔
      ∃ l, ls = l :: rest ∧ versionText l.token = some v ∧ Supported v := by
  cases ls with
  | nil => simp [version]
  | cons l ls =>
    have hchecked {text : String} :
        Takes (if ['2', '.'].isPrefixOf text.toList then .ok (.one text l ls)
            else .error (.version text) : ParseResult String (l :: ls)) v rest ↔
          ls = rest ∧ some text = some v ∧ Supported v := by
      rw [Option.some.injEq, Supported, ← List.isPrefixOf_iff_prefix]
      split
      · rename_i h
        rw [takes_ok]
        constructor
        · rintro ⟨hv, hrest⟩
          exact ⟨hrest, hv, hv ▸ h⟩
        · rintro ⟨hrest, hv, _⟩
          exact ⟨hv, hrest⟩
      · rename_i h
        refine iff_of_false not_takes_error ?_
        rintro ⟨_, hv, hprefix⟩
        exact h (hv ▸ hprefix)
    have hfirst : (∃ l', l :: ls = l' :: rest ∧ versionText l'.token = some v ∧ Supported v) ↔
        ls = rest ∧ versionText l.token = some v ∧ Supported v := by
      simp [and_assoc]
    rw [hfirst]
    simp only [version]
    split
    · rename_i value hl
      rw [hchecked, hl, versionText]
    · rename_i value hl
      rw [hchecked, hl, versionText]
    · rename_i hreal hinteger
      refine iff_of_false not_takes_error ?_
      rintro ⟨_, hv, _⟩
      unfold versionText at hv
      split at hv
      · exact hreal _ ‹_›
      · exact hinteger _ ‹_›
      · cases hv

/-- The lexemes are those of a program. -/
inductive ProgramAt : Program → Lexemes → Prop where
  | intro {p : Program} {head number close : Lexeme Token} {ls : Lexemes}
      (hhead : head.token = .keyword .openqasm)
      (hversion : versionText number.token = some p.version)
      (hsupported : Supported p.version) (hclose : close.token = .symbol .semicolon)
      (hstatements : StatementsAt p.statements ls) : ProgramAt p (head :: number :: close :: ls)

theorem program_eq_ok_iff {p : Program} : program n ls = .ok p ↔ ProgramAt p ls := by
  rw [program]
  constructor
  · intro h
    obtain ⟨head, hhead, h⟩ := bind_eq_ok_iff.mp h
    obtain ⟨v, hv, h⟩ := bind_eq_ok_iff.mp h
    obtain ⟨close, hclose, h⟩ := bind_eq_ok_iff.mp h
    obtain ⟨sts, hsts, h⟩ := bind_eq_ok_iff.mp h
    obtain rfl := Except.ok.inj h
    obtain ⟨l, hls, hl⟩ := spells_one.mp (takes_keyword.mp (takes_of_eq_ok hhead))
    obtain ⟨number, hnumber, hversion, hsupported⟩ := takes_version.mp (takes_of_eq_ok hv)
    obtain ⟨semicolon, hend, hsemicolon⟩ := spells_one.mp (takes_symbol.mp (takes_of_eq_ok hclose))
    have hprogram : ProgramAt ⟨v.value, sts⟩ (l :: number :: semicolon :: close.rest) :=
      .intro hl hversion hsupported hsemicolon (statements_eq_ok_iff.mp hsts)
    rwa [← hend, ← hnumber, ← hls] at hprogram
  · intro h
    cases h with
    | @intro head number close ls hhead hversion hsupported hclose hstatements =>
      obtain ⟨p₁, hp₁, -, hrest⟩ :=
        takes_keyword.mpr (spells_one.mpr ⟨head, Eq.refl (head :: number :: close :: ls), hhead⟩)
      obtain ⟨p₂, hp₂, hvalue, hrest⟩ := takes_version.mpr ⟨number, hrest, hversion, hsupported⟩
      obtain ⟨p₃, hp₃, -, hrest⟩ := takes_symbol.mpr (spells_one.mpr ⟨close, hrest, hclose⟩)
      rw [← hrest] at hstatements
      refine bind_eq_ok_iff.mpr ⟨p₁, hp₁, bind_eq_ok_iff.mpr ⟨p₂, hp₂, bind_eq_ok_iff.mpr
        ⟨p₃, hp₃, bind_eq_ok_iff.mpr ⟨_, statements_eq_ok_iff.mpr hstatements, ?_⟩⟩⟩⟩
      rw [hvalue]
      rfl

end Parser

theorem Program.parse_eq_ok_iff {source : String} {p : Program} :
    parse source = .ok p ↔
      ∃ ls, Parser.tokens (Lexeme.scan source.toList) = .ok ls ∧ Parser.ProgramAt p ls := by
  simp only [parse, bind_eq_ok_iff, Parser.program_eq_ok_iff]

end QubitRouting
