import QubitRouting.Circuit.Instruction
import QubitRouting.Proofs.Circuit.Legible

/-!
# Instructions that are read back

Texts are composed of words (`Lexeme.Composed`): a word ends where no word is continued, and marks
such as brackets and semicolons end everywhere. Each line of a mapped circuit is composed in this
way, of the tokens of one statement, so that the parser takes it and goes on behind it
(`IsLine.reads`). There are two exceptions, at which the parser stops (`NoLine.not_reads`): barriers
on no qubit, and numbers that are too large for an index. Some of the latter are too large for a
token as well, so that a word need not be one.
-/

set_option autoImplicit false

namespace QubitRouting

namespace Lexeme

/-! ## Single words -/

section

variable {c : Char} {cs w k g : List Char} {t : Token}

theorem cut_cons (hblank : ¬isBlank c) (hslash : c ≠ '/')
    (hextent : extent c (cs ++ k) = cs.length) :
    Cut (c :: cs) k :=
  ⟨c, cs, rfl, solid_cons.mpr ⟨hblank, fun h => hslash h.1⟩, hextent⟩

theorem not_blank_of_isIdentifierRest (hc : Token.isIdentifierRest c) : ¬isBlank c ∧ c ≠ '/' := by
  constructor
  · intro hblank
    simp only [isBlank, Bool.or_eq_true, decide_eq_true_eq] at hblank
    obtain ((rfl | rfl) | rfl) | rfl := hblank <;> exact absurd hc (by decide)
  · intro hslash
    subst hslash
    exact absurd hc (by decide)

theorem isIdentifierRest_of_isDigit (hc : c.isDigit) : Token.isIdentifierRest c := by
  simp [Token.isIdentifierRest, Char.isAlphanum, hc]

theorem not_isIdentifierStart_of_isDigit (hc : c.isDigit) : ¬Token.isIdentifierStart c := by
  intro hstart
  unfold Token.isIdentifierStart at hstart
  rcases Bool.or_eq_true_iff.mp hstart with halpha | hunder
  · have hvalues : c.isAlpha = (decide (c.val ≥ 'A'.val ∧ c.val ≤ 'Z'.val) ||
        (decide (c.val ≥ 'a'.val) && decide (c.val ≤ 'z'.val))) := rfl
    obtain ⟨-, hnine⟩ := Char.isDigit_iff_toNat.mp hc
    simp only [hvalues, Bool.or_eq_true, Bool.and_eq_true, decide_eq_true_eq,
      UInt32.le_iff_toNat_le, ge_iff_le] at halpha
    have hdigit : c.val.toNat ≤ 57 := hnine
    have hupper : 'A'.val.toNat = 65 := rfl
    have hlower : 'a'.val.toNat = 97 := rfl
    omega
  · rw [decide_eq_true_eq] at hunder
    subst hunder
    exact absurd hc (by decide)

theorem isIdentifierRest_of_isIdentifierStart (hc : Token.isIdentifierStart c) :
    Token.isIdentifierRest c := by
  unfold Token.isIdentifierStart at hc
  unfold Token.isIdentifierRest Char.isAlphanum
  cases hunder : decide (c = '_') <;> simp_all

theorem cut_identifier (hc : Token.isIdentifierStart c) (hcs : cs.all Token.isIdentifierRest)
    (hk : Neutral k) : Cut (c :: cs) k := by
  have hrest := not_blank_of_isIdentifierRest (isIdentifierRest_of_isIdentifierStart hc)
  refine cut_cons hrest.1 hrest.2 ?_
  unfold extent
  rw [if_pos hc, takeWhile_append_stop hk.not_isIdentifierRest,
    List.takeWhile_eq_self_iff.mpr (List.all_eq_true.mp hcs)]

theorem cut_digits (hw : w ≠ []) (hdigits : ∀ c ∈ w, c.isDigit) (hk : Neutral k) : Cut w k := by
  obtain ⟨c, cs, rfl⟩ := List.exists_cons_of_ne_nil hw
  obtain ⟨hc, hcs⟩ := List.forall_mem_cons.mp hdigits
  have hrest := not_blank_of_isIdentifierRest (isIdentifierRest_of_isDigit hc)
  have hquote : c ≠ '"' := by
    intro h
    subst h
    exact absurd hc (by decide)
  refine cut_cons hrest.1 hrest.2 ?_
  rw [extent_append hquote hk]
  unfold extent
  rw [if_neg (not_isIdentifierStart_of_isDigit hc), if_pos hc, List.takeWhile_eq_self_iff.mpr hcs]
  dsimp only
  rw [List.drop_length]
  rfl

/-- Characters that are words by themselves, whatever follows. -/
def marks : List Char := ['(', ')', '[', ']', ';', ',']

theorem cut_mark (hc : c ∈ marks) (k : List Char) : Cut [c] k := by
  simp only [marks, List.mem_cons, List.not_mem_nil, or_false] at hc
  have hextent : extent c k = 0 := by
    unfold extent
    obtain rfl | rfl | rfl | rfl | rfl | rfl := hc <;> cases k <;> rfl
  obtain rfl | rfl | rfl | rfl | rfl | rfl := hc <;>
    exact cut_cons (by decide) (by decide) hextent

theorem cut_arrow (k : List Char) : Cut ['-', '>'] k :=
  cut_cons (by decide) (by decide) rfl

theorem cut_string (h : '"' ∉ w) (k : List Char) : Cut ('"' :: (w ++ ['"'])) k := by
  refine cut_cons (by decide) (by decide) ?_
  rw [List.append_assoc, List.singleton_append, extent_string h, List.length_append]
  rfl

end

/-! ## Composed texts -/

/-- The word is this token or, if `lax`, perhaps none at all. -/
def Shows (lax : Prop) (w : List Char) (t : Token) : Prop :=
  Token.ofText? w = some t ∨ lax ∧ Token.ofText? w = none

/-- The text `cs` in front of `k` is made of these words, which are these tokens. If `lax`, some of
them may be none. -/
structure Composed (lax : Prop) (cs : List Char) (ws : List Word) (ts : List Token)
    (k : List Char) : Prop where
  text : render ws [] = cs
  separated : Separated ws k
  tokens : List.Forall₂ (fun w t => Shows lax w.2 t) ws ts

section

variable {lax : Prop} {cs cs' w k g : List Char} {ws ws' : List Word} {ts ts' : List Token}
  {t : Token}

theorem composed_nil (lax : Prop) (k : List Char) : Composed lax [] [] [] k :=
  ⟨rfl, trivial, .nil⟩

theorem Composed.append (h : Composed lax cs ws ts (cs' ++ k)) (h' : Composed lax cs' ws' ts' k) :
    Composed lax (cs ++ cs') (ws ++ ws') (ts ++ ts') k where
  text := by rw [render_append, h'.text, render_eq_append, h.text]
  separated := by
    have hfollow : render ws' k = cs' ++ k := by rw [render_eq_append, h'.text]
    exact separated_append.mpr ⟨hfollow ▸ h.separated, h'.separated⟩
  tokens := List.rel_append h.tokens h'.tokens

/-- One more word in front. -/
theorem Composed.push (h : Composed lax cs ws ts k) (hg : Gap false g) (hw : Cut w (cs ++ k))
    (ht : Shows lax w t) : Composed lax (g ++ (w ++ cs)) ((g, w) :: ws) (t :: ts) k where
  text := by rw [render_cons, h.text]
  separated := ⟨hg, by rwa [render_eq_append, h.text], h.separated⟩
  tokens := .cons ht h.tokens

theorem Composed.cons (h : Composed lax cs ws ts k) (hg : Gap false g) (hw : Cut w (cs ++ k))
    (ht : Token.ofText? w = some t) : Composed lax (g ++ (w ++ cs)) ((g, w) :: ws) (t :: ts) k :=
  h.push hg hw (.inl ht)

theorem Composed.map_ofText? (h : Composed False cs ws ts k) :
    ws.map (fun w => Token.ofText? w.2) = ts.map some := by
  have hshown := h.tokens
  clear h
  induction hshown with
  | nil => rfl
  | cons hw _ ih => rw [List.map_cons, List.map_cons, hw.resolve_right And.left, ih]

theorem Composed.keyword (h : Composed lax cs ws ts k) (kw : Keyword) (hg : Gap false g)
    (hk : Neutral (cs ++ k)) :
    Composed lax (g ++ (kw.text.toList ++ cs)) ((g, kw.text.toList) :: ws)
      (.keyword kw :: ts) k := by
  obtain ⟨c, w, htext, hc, hw⟩ : ∃ c w, kw.text.toList = c :: w ∧ Token.isIdentifierStart c ∧
      w.all Token.isIdentifierRest := by
    cases kw <;> exact ⟨_, _, rfl, by decide, by decide⟩
  refine h.cons hg (htext ▸ cut_identifier hc hw hk) ?_
  cases kw <;> rfl

theorem Composed.name (h : Composed lax cs ws ts k) {name : String} (hname : IsName name)
    (hg : Gap false g) (hk : Neutral (cs ++ k)) :
    Composed lax (g ++ (name.toList ++ cs)) ((g, name.toList) :: ws)
      (.identifier name :: ts) k := by
  obtain ⟨⟨c, w, htext, hc, hw⟩, hword⟩ := hname
  have hlist : String.ofList (c :: w) = name := by rw [← htext, String.ofList_toList]
  refine h.cons hg (htext ▸ cut_identifier hc hw hk) ?_
  simp only [htext, Token.ofText?, if_pos hc, hlist, hword]

theorem natOfDigits_toDigits (n : Nat) : Decimal.natOfDigits (Nat.toDigits 10 n) = n :=
  Nat.ofDigitChars_ten_toDigits

theorem ofText?_digits (n : Nat) : Token.ofText? (toString n).toList =
    if n < Token.integerLimit then some (.integer n) else none := by
  rw [Nat.toString_eq_ofList_toDigits, String.toList_ofList]
  have hdigits : ∀ c ∈ Nat.toDigits 10 n, c.isDigit := fun c =>
    Nat.isDigit_of_mem_toDigits (by decide) (by decide)
  have hvalue := natOfDigits_toDigits n
  cases hw : Nat.toDigits 10 n with
  | nil => exact absurd hw Nat.toDigits_ne_nil
  | cons c cs =>
    rw [hw] at hdigits hvalue
    obtain ⟨hc, hcs⟩ := List.forall_mem_cons.mp hdigits
    have hall : (c.isDigit && cs.all Char.isDigit) = true := by simpa [hc] using hcs
    simp only [Token.ofText?, if_neg (not_isIdentifierStart_of_isDigit hc), if_pos hall, hvalue]

/-- A number shows its token, and is none where it is too large. -/
theorem shows_digits {n : Nat} (h : n < Token.integerLimit ∨ lax) :
    Shows lax (toString n).toList (.integer n) := by
  rw [Shows, ofText?_digits]
  by_cases hn : n < Token.integerLimit
  · exact Or.inl (if_pos hn)
  · exact Or.inr ⟨h.resolve_left hn, if_neg hn⟩

theorem cut_toString (n : Nat) (hk : Neutral k) : Cut (toString n).toList k := by
  rw [Nat.toString_eq_ofList_toDigits, String.toList_ofList]
  exact cut_digits Nat.toDigits_ne_nil
    (fun c => Nat.isDigit_of_mem_toDigits (by decide) (by decide)) hk

theorem ofText?_symbol (s : Symbol) : Token.ofText? s.text.toList = some (.symbol s) := by
  cases s <;> rfl

theorem Composed.mark (h : Composed lax cs ws ts k) {s : Symbol} {c : Char}
    (hs : s.text.toList = [c]) (hc : c ∈ marks) :
    Composed lax (c :: cs) (([], [c]) :: ws) (.symbol s :: ts) k :=
  h.cons .nil (cut_mark hc _) (hs ▸ ofText?_symbol s)

end

end Lexeme

open Lexeme

/-! ## Operands -/

/-- An operand that can be written. Its index may be too large if `lax`. -/
structure Operand.Writable (lax : Prop) (o : Operand) : Prop where
  register : IsName o.register
  inRange : o.InRange ∨ lax

theorem Operand.Legible.writable {lax : Prop} {o : Operand} (h : o.Legible) : o.Writable lax :=
  ⟨h.register, Or.inl h.inRange⟩

section

variable {lax : Prop} {cs k g : List Char} {ws : List Word} {ts : List Token}

theorem gap_blank : Gap false [' '] := .blank (by decide) .nil

theorem neutral_blank (k : List Char) : Neutral (' ' :: k) := ⟨by decide, by decide⟩

theorem neutral_of_mark {c : Char} (hc : c ∈ marks) (k : List Char) : Neutral (c :: k) := by
  simp only [marks, List.mem_cons, List.not_mem_nil, or_false] at hc
  obtain rfl | rfl | rfl | rfl | rfl | rfl := hc <;> exact ⟨by decide, by decide⟩

/-- An element of a register in front. -/
theorem Lexeme.Composed.element (h : Composed lax cs ws ts k) {name : String} {i : Nat}
    (hname : IsName name) (hi : i < Token.integerLimit ∨ lax) (hg : Gap false g) :
    ∃ ws, Composed lax (g ++ ((elementName name i).toList ++ cs)) ws
      (.identifier name :: .symbol .openBracket :: .integer i ::
        .symbol .closeBracket :: ts) k := by
  have hclose := h.mark (s := .closeBracket) (c := ']') rfl (by decide)
  have hindex := hclose.push .nil (cut_toString i (neutral_of_mark (by decide) _)) (shows_digits hi)
  have hopen := hindex.mark (s := .openBracket) (c := '[') rfl (by decide)
  have hall := hopen.name hname hg (neutral_of_mark (by decide) _)
  have htext : g ++ ((elementName name i).toList ++ cs) =
      g ++ (name.toList ++ '[' :: ([] ++ ((toString i).toList ++ ']' :: cs))) := by
    simp [elementName, toString]
  rw [htext]
  exact ⟨_, hall⟩

theorem integerLimit_of_indexLimit {i : Nat} (h : i < Parser.indexLimit) : i < Token.integerLimit :=
  Nat.lt_trans h (by decide)

/-- An operand in front. -/
theorem Lexeme.Composed.operand (h : Composed lax cs ws ts k) {o : Operand} (ho : o.Writable lax)
    (hg : Gap false g) (hk : Neutral (cs ++ k)) :
    ∃ ws, Composed lax (g ++ (o.text.toList ++ cs)) ws (o.tokens ++ ts) k := by
  obtain ⟨register, i?⟩ := o
  cases i? with
  | none => exact ⟨_, h.name ho.register hg hk⟩
  | some i =>
    exact h.element ho.register
      (ho.inRange.imp_left fun hrange => integerLimit_of_indexLimit (hrange i rfl)) hg

/-- Operands with commas between them in front. -/
theorem Lexeme.Composed.operands (h : Composed lax cs ws ts k) {os : List Operand} (hne : os ≠ [])
    (hos : ∀ o ∈ os, o.Writable lax) (hg : Gap false g) (hk : Neutral (cs ++ k)) :
    ∃ ws, Composed lax (g ++ ((String.intercalate "," (os.map (·.text))).toList ++ cs)) ws
      (Operand.listTokens os ++ ts) k := by
  induction os generalizing g with
  | nil => exact absurd rfl hne
  | cons o os ih =>
    obtain ⟨ho, hos⟩ := List.forall_mem_cons.mp hos
    cases os with
    | nil =>
      have hone : String.intercalate "," ([o].map (·.text)) = o.text := String.intercalate_singleton
      rw [hone]
      exact h.operand ho hg hk
    | cons o' os =>
      obtain ⟨ws', hrest⟩ := ih (by simp) hos .nil
      obtain ⟨ws'', hall⟩ := (hrest.mark (s := .comma) (c := ',') rfl (by decide)).operand ho hg
        (neutral_of_mark (by decide) _)
      have htext : (String.intercalate "," ((o :: o' :: os).map (·.text))).toList =
          o.text.toList ++ ',' :: (String.intercalate "," ((o' :: os).map (·.text))).toList := by
        simp [String.intercalate_cons_cons]
      have htokens : Operand.listTokens (o :: o' :: os) ++ ts =
          o.tokens ++ .symbol .comma :: (Operand.listTokens (o' :: os) ++ ts) := by
        simp [Operand.listTokens]
      rw [htext, htokens, List.append_assoc]
      exact ⟨ws'', hall⟩

end

/-! ## Lines -/

/-- The text is read as these statements. -/
def Reads (offset line : Nat) (cs : List Char) (sts : List Statement) : Prop :=
  ∃ ls, Parser.tokens (scanFrom offset line cs) = .ok ls ∧ Parser.StatementsAt sts ls

/-- Behind any gap and whatever follows, the text is read as one statement, which has property
`P`. -/
def IsLine (P : Statement → Prop) (cs : List Char) : Prop :=
  ∀ g k, Gap false g → ∃ ws ts, Composed False (g ++ cs) ws ts k ∧
    ∀ ls : Lexemes, ls.map word = ws → ls.map (·.token) = ts →
      ∃ st, P st ∧ ∀ rest, Parser.StatementAt st (ls ++ rest) rest

/-- Behind any gap and whatever follows, the text is not read. -/
def NoLine (cs : List Char) : Prop :=
  ∀ g k, Gap false g → ∃ ws ts, Composed True (g ++ cs) ws ts k ∧
    ∀ ls : Lexemes, ls.map word = ws → ls.map (·.token) = ts →
      ∀ sts rest, ¬Parser.StatementsAt sts (ls ++ rest)

section

variable {cs k g : List Char} {ws : List Word} {ts : List Token}

/-- The lexemes of a composed text stand in front of those of the text that follows. -/
theorem Lexeme.Composed.tokens_scanFrom (h : Composed False cs ws ts k) (offset line : Nat) :
    ∃ front offset' line', front.map word = ws ∧ front.map (·.token) = ts ∧
      ∀ ls, Parser.tokens (scanFrom offset line (cs ++ k)) = .ok ls ↔
        ∃ rest, Parser.tokens (scanFrom offset' line' k) = .ok rest ∧ ls = front ++ rest := by
  obtain ⟨found, offset', line', hscan, hwords, htoken⟩ := scanFrom_render h.separated offset line
  rw [render_eq_append, h.text] at hscan
  have htokens : found.map (·.token) = ts.map some := by
    rw [← h.map_ofText?, ← hwords, List.map_map]
    exact List.map_congr_left htoken
  obtain ⟨front, hfront, hfrontWords, hfrontTokens⟩ := exists_lexemes htokens
  refine ⟨front, offset', line', hfrontWords.trans hwords, hfrontTokens, fun ls => ?_⟩
  rw [hscan, tokens_append, hfront]
  constructor
  · intro ⟨ls₁, rest, h₁, hrest, hls⟩
    exact ⟨rest, hrest, by rw [hls, Except.ok.inj h₁]⟩
  · intro ⟨rest, hrest, hls⟩
    exact ⟨front, rest, rfl, hrest, hls⟩

theorem map_token_of_shows {lax : Prop} {front : Lexemes}
    (h : List.Forall₂ (fun l t => Shows lax l.text t) front ts)
    (htoken : ∀ l ∈ front, Token.ofText? l.text = some l.token) : front.map (·.token) = ts := by
  induction h with
  | nil => rfl
  | @cons l t front ts hl _ ih =>
    obtain ⟨hfirst, hmore⟩ := List.forall_mem_cons.mp htoken
    rcases hl with hl | ⟨-, hnone⟩
    · rw [List.map_cons, ih hmore, Option.some.inj (hfirst.symm.trans hl)]
    · rw [hfirst] at hnone
      cases hnone

/-- If all words are tokens, they are those that they show. -/
theorem Lexeme.Composed.exists_front {lax : Prop} (h : Composed lax cs ws ts k) {offset line : Nat}
    {ls : Lexemes} (hls : Parser.tokens (scanFrom offset line (cs ++ k)) = .ok ls) :
    ∃ front rest, front.map word = ws ∧ front.map (·.token) = ts ∧ ls = front ++ rest := by
  obtain ⟨found, offset', line', hscan, hwords, htoken⟩ := scanFrom_render h.separated offset line
  rw [render_eq_append, h.text] at hscan
  rw [hscan, tokens_append] at hls
  obtain ⟨front, rest, hfront, -, rfl⟩ := hls
  rw [tokens_eq_ok_iff] at hfront
  subst hfront
  have hsame : front.map word = ws := by
    rw [← hwords, List.map_map]
    rfl
  refine ⟨front, rest, hsame, ?_, rfl⟩
  have hshown := h.tokens
  rw [← hsame, List.forall₂_map_left_iff] at hshown
  exact map_token_of_shows hshown fun l hl => (htoken _ (List.mem_map_of_mem hl)).symm

/-- **A line is read as its statement, and reading goes on behind it.** -/
theorem IsLine.reads {P : Statement → Prop} (h : IsLine P cs) (hg : Gap false g) (k : List Char)
    (offset line : Nat) :
    ∃ st offset' line', P st ∧ ∀ sts, Reads offset line (g ++ cs ++ k) sts ↔
      ∃ more, Reads offset' line' k more ∧ sts = st :: more := by
  obtain ⟨ws, ts, hcomposed, hreads⟩ := h g k hg
  obtain ⟨front, offset', line', hwords, htokens, hscan⟩ := hcomposed.tokens_scanFrom offset line
  obtain ⟨st, hst, hat⟩ := hreads front hwords htokens
  refine ⟨st, offset', line', hst, fun sts => ?_⟩
  simp only [Reads, hscan]
  constructor
  · intro ⟨ls, ⟨rest, hrest, hls⟩, hsts⟩
    subst hls
    obtain ⟨more, hmore, rfl⟩ := (hat rest).statementsAt_iff.mp hsts
    exact ⟨more, ⟨rest, hrest, hmore⟩, rfl⟩
  · intro ⟨more, ⟨rest, hrest, hmore⟩, hsts⟩
    exact ⟨front ++ rest, ⟨rest, hrest, rfl⟩, (hat rest).statementsAt_iff.mpr ⟨more, hmore, hsts⟩⟩

end

/-! ## The lines of a mapped circuit -/

section

open QubitRouting.Parser

variable {cs : List Char} {st : Statement}

theorem composed_semicolon (lax : Prop) (k : List Char) :
    Composed lax [';'] [([], [';'])] [.symbol .semicolon] k :=
  (composed_nil lax k).mark rfl (by decide)

/-- Lines whose statements are determined by tokens. -/
theorem isLine_of_spells (ts : List Token)
    (hcs : ∀ g k, Gap false g → ∃ ws, Composed False (g ++ cs) ws (ts ++ [.symbol .semicolon]) k)
    (hst : ∀ {close : Lexeme Token} {ls rest : Lexemes}, close.token = .symbol .semicolon →
      Spells ts ls (close :: rest) → BodyAt st ls (close :: rest)) :
    IsLine (st = ·) cs := by
  intro g k hg
  obtain ⟨ws, hcomposed⟩ := hcs g k hg
  refine ⟨ws, _, hcomposed, fun ls _ htokens => ⟨st, rfl, fun rest => ?_⟩⟩
  have hspells : Spells (ts ++ [.symbol .semicolon]) (ls ++ rest) rest := ⟨ls, rfl, htokens⟩
  obtain ⟨mid, hbody, hclose⟩ := spells_append.mp hspells
  obtain ⟨close, rfl, htoken⟩ := spells_one.mp hclose
  exact ⟨close, htoken, hst htoken hbody⟩

theorem ofText?_string {w : List Char} :
    Token.ofText? ('"' :: (w ++ ['"'])) = some (.string (String.ofList w)) := by
  have hlast : (w ++ ['"']).getLast? = some '"' := List.getLast?_concat
  have hdigit : Char.isDigit '"' = false := rfl
  rw [Token.ofText?, if_neg (by decide), if_neg (by simp [hdigit]), if_neg (by simp [hdigit]),
    if_pos rfl, if_pos hlast, List.dropLast_concat]

theorem isLine_includes {path : String} (h : '"' ∉ path.toList) :
    IsLine (.includes path = ·) ("include \"" ++ path ++ "\";").toList := by
  refine isLine_of_spells [.keyword .includes, .string path] (fun g k hg => ?_) fun _ hspells => ?_
  swap
  · obtain ⟨l, mid, rfl, hl, hspells⟩ := spells_cons.mp hspells
    exact .includes hl hspells
  have hpath := (composed_semicolon False k).cons gap_blank (cut_string h _) ofText?_string
  rw [String.ofList_toList] at hpath
  have hall := hpath.keyword .includes hg (neutral_blank _)
  have htext : g ++ ("include \"" ++ path ++ "\";").toList =
      g ++ (Keyword.includes.text.toList ++
        ([' '] ++ ('"' :: (path.toList ++ ['"']) ++ [';']))) := by
    simp [Keyword.text]
  rw [htext]
  exact ⟨_, hall⟩

theorem operandAt_of_spells {o : Operand} {close : Lexeme Token} {ls rest : Lexemes} {s : Symbol}
    (ho : o.InRange) (hclose : close.token = .symbol s) (hs : s ≠ .openBracket)
    (h : Spells o.tokens ls (close :: rest)) : OperandAt o ls (close :: rest) := by
  refine ⟨ho, fun _ => ?_, h⟩
  rw [starts_cons, hclose]
  exact fun heq => hs (Token.symbol.inj heq)

/-- The declaration of a register. -/
theorem isLine_decl {kw : Keyword} {d : RegisterDecl} (hd : d.Legible)
    (hst : ∀ {l : Lexeme Token} {ls rest : Lexemes} {o : Operand}, l.token = .keyword kw →
      OperandAt o ls rest → d = ⟨o.register, o.index.getD 1⟩ → BodyAt st (l :: ls) rest) :
    IsLine (st = ·) (kw.text ++ " " ++ elementName d.name d.size ++ ";").toList := by
  have hrange : Operand.InRange ⟨d.name, some d.size⟩ := fun i hi => Option.some.inj hi ▸ hd.size
  refine isLine_of_spells (.keyword kw :: Operand.tokens ⟨d.name, some d.size⟩)
    (fun g k hg => ?_) fun hclose hspells => ?_
  · obtain ⟨ws, helement⟩ := (composed_semicolon False k).element hd.name
      (Or.inl (integerLimit_of_indexLimit hd.size)) gap_blank
    have hall := helement.keyword kw hg (neutral_blank _)
    have htext : g ++ (kw.text ++ " " ++ elementName d.name d.size ++ ";").toList =
        g ++ (kw.text.toList ++ ([' '] ++ ((elementName d.name d.size).toList ++ [';']))) := by
      simp
    rw [htext]
    exact ⟨_, hall⟩
  · obtain ⟨l, mid, rfl, hl, hspells⟩ := spells_cons.mp hspells
    exact hst hl (operandAt_of_spells hrange hclose (by decide) hspells) rfl

theorem isLine_qreg {d : RegisterDecl} (hd : d.Legible) :
    IsLine (.qreg d = ·) ("qreg " ++ elementName d.name d.size ++ ";").toList := by
  have hline :
      IsLine (.qreg d = ·) (Keyword.qreg.text ++ " " ++ elementName d.name d.size ++ ";").toList :=
    isLine_decl hd fun hl ho heq => heq ▸ .qreg hl ho
  rwa [show Keyword.qreg.text ++ " " = "qreg " by decide] at hline

theorem isLine_creg {d : RegisterDecl} (hd : d.Legible) :
    IsLine (.creg d = ·) ("creg " ++ elementName d.name d.size ++ ";").toList := by
  have hline :
      IsLine (.creg d = ·) (Keyword.creg.text ++ " " ++ elementName d.name d.size ++ ";").toList :=
    isLine_decl hd fun hl ho heq => heq ▸ .creg hl ho
  rwa [show Keyword.creg.text ++ " " = "creg " by decide] at hline

end

/-! ## Gates with parameters -/

namespace Lexeme

/-- The words without the gap in front. -/
def unpad : List Word → List Word
  | [] => []
  | w :: ws => ([], w.2) :: ws

theorem unpad_unpad (ws : List Word) : unpad (unpad ws) = unpad ws := by
  cases ws <;> rfl

theorem span_eq_render (ls : Lexemes) : span ls = render (unpad (ls.map word)) [] := by
  cases ls with
  | nil => rfl
  | cons l ls =>
    have hrest : ls.flatMap (fun l => l.skipped ++ l.text) = render (ls.map word) [] := by
      induction ls with
      | nil => rfl
      | cons l ls ih =>
        rw [List.flatMap_cons, ih, List.map_cons, render_cons, word, List.append_assoc]
    rw [span, hrest]
    rfl

@[simp] theorem length_unpad (ws : List Word) : (unpad ws).length = ws.length := by
  cases ws <;> rfl

/-- Parameters, before a closing parenthesis. -/
theorem composed_params {lax : Prop} {inner : Lexemes} (h : Scanned inner [')'])
    (k : List Char) :
    Composed lax (span inner) (unpad (inner.map word)) (inner.map (·.token)) (')' :: k) where
  text := (span_eq_render inner).symm
  separated := by
    have hscanned : Scanned inner (')' :: k) :=
      h.congr (by decide) ⟨by decide, by decide⟩ (by simp)
    have hsep := hscanned.separated
    cases inner with
    | nil => trivial
    | cons l inner => exact ⟨.nil, hsep.2⟩
  tokens := by
    have hshown : List.Forall₂ (fun w t => Shows lax w.2 t) (inner.map word)
        (inner.map (·.token)) := by
      rw [List.forall₂_map_left_iff, List.forall₂_map_right_iff]
      exact List.forall₂_same.mpr fun l hl => Or.inl (h.token l hl)
    cases inner with
    | nil => exact .nil
    | cons l inner =>
      cases hshown with
      | cons hl hinner => exact .cons hl hinner

end Lexeme

/-- Lexemes that are words and tokens of two parts. -/
theorem exists_parts {ls : Lexemes} {ws ws' : List Word} {ts ts' : List Token}
    (hws : ls.map word = ws ++ ws') (hts : ls.map (·.token) = ts ++ ts')
    (h : ws.length = ts.length) :
    ∃ front rest, ls = front ++ rest ∧ front.map word = ws ∧ front.map (·.token) = ts ∧
      rest.map word = ws' ∧ rest.map (·.token) = ts' := by
  obtain ⟨front, rest, rfl, hfront, hrest⟩ := List.map_eq_append_iff.mp hws
  rw [List.map_append] at hts
  have hlength : (front.map (·.token)).length = ts.length := by
    rw [← h, ← hfront, List.length_map, List.length_map]
  obtain ⟨hfrontTokens, hrestTokens⟩ := List.append_inj hts hlength
  exact ⟨front, rest, rfl, hfront, hfrontTokens, hrest, hrestTokens⟩

section

open QubitRouting.Parser

variable {name : String} {os : List Operand} {k g : List Char}

/-- Operands and the end of a statement. -/
theorem composed_arguments {lax : Prop} (hne : os ≠ []) (hos : ∀ o ∈ os, o.Writable lax)
    (k : List Char) :
    ∃ ws, Composed lax ([' '] ++ ((String.intercalate "," (os.map (·.text))).toList ++ [';'])) ws
      (Operand.listTokens os ++ [.symbol .semicolon]) k :=
  (composed_semicolon lax k).operands hne hos gap_blank (neutral_of_mark (by decide) k)

theorem exists_operandsAt {ls : Lexemes} (hne : os ≠ []) (hos : ∀ o ∈ os, o.Legible)
    (h : ls.map (·.token) = Operand.listTokens os ++ [.symbol .semicolon]) (rest : Lexemes) :
    ∃ close, close.token = .symbol .semicolon ∧ OperandsAt os (ls ++ rest) (close :: rest) := by
  obtain ⟨mid, hoperands, hclose⟩ := spells_append.mp ⟨ls, rfl, h⟩
  obtain ⟨close, rfl, htoken⟩ := spells_one.mp hclose
  exact ⟨close, htoken, (operandsAt_iff htoken).mpr ⟨hne, fun o ho => (hos o ho).inRange,
    hoperands⟩⟩

/-- What is kept of parameters does not depend on the gap in front of them. -/
theorem paramsOf_eq_of_words {inner inner' : Lexemes} (hne : inner ≠ [])
    (h : inner'.map word = unpad (inner.map word)) :
    paramsOf inner' = some (String.ofList (span inner)) := by
  have hspan : span inner' = span inner := by
    rw [span_eq_render, span_eq_render, h, unpad_unpad]
  have hne' : inner' ≠ [] := by
    intro hnil
    have hlength := congrArg List.length h
    rw [hnil, length_unpad, List.length_map, List.length_map] at hlength
    exact hne (List.eq_nil_of_length_eq_zero hlength.symm)
  rw [paramsOf, if_neg (by simpa using hne'), hspan]

/-- How parameters are written. -/
def paramsText : Option String → List Char
  | none => []
  | some text => '(' :: (text.toList ++ [')'])

/-- What is written behind a gate's name is read as the parameters, and as the operands that are
read behind them. -/
theorem composed_tail {lax : Prop} {params : Option String}
    (hparams : ∀ text, params = some text → IsParams text.toList) (hne : os ≠ [])
    (hos : ∀ o ∈ os, o.Writable lax) (k : List Char) :
    ∃ ws ts, Composed lax (paramsText params ++
        ([' '] ++ ((String.intercalate "," (os.map (·.text))).toList ++ [';']))) ws ts k ∧
      ∀ ls : Lexemes, ls.map word = ws → ls.map (·.token) = ts → ∃ ops : Lexemes,
        ops.map (·.token) = Operand.listTokens os ++ [.symbol .semicolon] ∧
          ∀ params' os' rest after, TailAt params' os' (ls ++ rest) after ↔
            params' = params ∧ OperandsAt os' (ops ++ rest) after := by
  obtain ⟨ws, harguments⟩ := composed_arguments hne hos k
  cases params with
  | none =>
    refine ⟨ws, _, harguments, fun ls _ htokens => ⟨ls, htokens, fun params' os' rest after => ?_⟩⟩
    refine tailAt_plain_iff ?_
    obtain ⟨o, os, rfl⟩ := List.exists_cons_of_ne_nil hne
    obtain ⟨ts, hts⟩ := Operand.listTokens_cons o os
    rw [hts] at htokens
    obtain ⟨l, ls, rfl, hl, -⟩ := List.map_eq_cons_iff.mp htokens
    rw [List.cons_append, starts_cons, hl]
    exact fun heq => by cases heq
  | some text =>
    obtain ⟨inner, hinner, htext, hscanned, hbalanced⟩ := hparams text rfl
    have hclose := harguments.mark (s := .closeParen) (c := ')') rfl (by decide)
    have hbody := (composed_params hscanned _).append hclose
    have hall := hbody.mark (s := .openParen) (c := '(') rfl (by decide)
    rw [htext] at hall
    have hlist : paramsText (some text) ++
          ([' '] ++ ((String.intercalate "," (os.map (·.text))).toList ++ [';'])) =
        '(' :: (text.toList ++ ')' ::
          ([' '] ++ ((String.intercalate "," (os.map (·.text))).toList ++ [';']))) := by
      simp [paramsText]
    rw [hlist]
    refine ⟨_, _, hall, fun ls hwords htokens => ?_⟩
    obtain ⟨l, ls, rfl, hl, hmore⟩ := List.map_eq_cons_iff.mp htokens
    -- `inner` was read from the source and `inner'` from what is written. The two may differ in the
    -- gap in front of them, which is not kept.
    obtain ⟨inner', more, rfl, hinnerWords, hinnerTokens, -, hmore⟩ :=
      exists_parts (List.cons.inj hwords).2 hmore (by simp)
    obtain ⟨paren, ops, rfl, hparen, hops⟩ := List.map_eq_cons_iff.mp hmore
    refine ⟨ops, hops, fun params' os' rest after => ?_⟩
    have hkept : paramsOf inner' = some text := by
      rw [paramsOf_eq_of_words hinner hinnerWords, htext, String.ofList_toList]
    rw [← hkept, List.cons_append, List.append_assoc, List.cons_append]
    exact tailAt_params_iff hl (hinnerTokens ▸ hbalanced) hparen

theorem neutral_tail (params : Option String) (os : List Operand) (k : List Char) :
    Neutral (paramsText params ++
      ([' '] ++ ((String.intercalate "," (os.map (·.text))).toList ++ [';'])) ++ k) := by
  cases params with
  | none => exact neutral_blank _
  | some text => exact neutral_of_mark (by decide) _

theorem isLine_gate {params : Option String} (hname : IsName name)
    (hsupported : name ∉ unsupportedWords)
    (hparams : ∀ text, params = some text → IsParams text.toList) (hne : os ≠ [])
    (hfew : os.length ≤ maxGateOperands) (hos : ∀ o ∈ os, o.Legible) :
    IsLine (fun st => ∃ line, st = .gate ⟨name, params, os, line⟩)
      (name.toList ++ (paramsText params ++
        ([' '] ++ ((String.intercalate "," (os.map (·.text))).toList ++ [';'])))) := by
  intro g k hg
  obtain ⟨ws, ts, htail, hreads⟩ :=
    composed_tail hparams hne (fun o ho => ((hos o ho).writable : o.Writable False)) k
  refine ⟨_, _, htail.name hname hg (neutral_tail params os k), fun ls hwords htokens => ?_⟩
  obtain ⟨l, ls, rfl, hl, hls⟩ := List.map_eq_cons_iff.mp htokens
  refine ⟨_, ⟨l.line, rfl⟩, fun rest => ?_⟩
  obtain ⟨ops, hops, htail⟩ := hreads ls (List.cons.inj hwords).2 hls
  obtain ⟨close, hclose, hat⟩ := exists_operandsAt hne hos hops rest
  exact ⟨close, hclose, .gate hl rfl hsupported hfew ((htail _ _ _ _).mpr ⟨rfl, hat⟩)⟩

end

/-! ## Statements over operands -/

theorem IsLine.imp {P P' : Statement → Prop} {cs : List Char} (h : IsLine P cs)
    (hP : ∀ st, P st → P' st) : IsLine P' cs := by
  intro g k hg
  obtain ⟨ws, ts, hcomposed, hreads⟩ := h g k hg
  refine ⟨ws, ts, hcomposed, fun ls hwords htokens => ?_⟩
  obtain ⟨st, hst, hat⟩ := hreads ls hwords htokens
  exact ⟨st, hP st hst, hat⟩

section

open QubitRouting.Parser

variable {lax : Prop} {q b : Operand} {qs : List Operand} {g : List Char}

theorem composed_reset (hq : q.Writable lax) (hg : Gap false g) (k : List Char) :
    ∃ ws, Composed lax (g ++ ("reset " ++ q.text ++ ";").toList) ws
      (.keyword .reset :: (q.tokens ++ [.symbol .semicolon])) k := by
  obtain ⟨ws, hoperand⟩ :=
    (composed_semicolon lax k).operand hq gap_blank (neutral_of_mark (by decide) k)
  have htext : g ++ ("reset " ++ q.text ++ ";").toList =
      g ++ (Keyword.reset.text.toList ++ ([' '] ++ (q.text.toList ++ [';']))) := by
    simp [Keyword.text]
  rw [htext]
  exact ⟨_, hoperand.keyword .reset hg (neutral_blank _)⟩

theorem composed_measure (hq : q.Writable lax) (hb : b.Writable lax) (hg : Gap false g)
    (k : List Char) :
    ∃ ws, Composed lax (g ++ ("measure " ++ q.text ++ " -> " ++ b.text ++ ";").toList) ws
      (.keyword .measure ::
        (q.tokens ++ .symbol .arrow :: b.tokens ++ [.symbol .semicolon])) k := by
  obtain ⟨ws, hbit⟩ :=
    (composed_semicolon lax k).operand hb gap_blank (neutral_of_mark (by decide) k)
  have harrow := hbit.cons gap_blank (cut_arrow _) (ofText?_symbol .arrow)
  obtain ⟨ws', hqubit⟩ := harrow.operand hq gap_blank (neutral_blank _)
  have htext : g ++ ("measure " ++ q.text ++ " -> " ++ b.text ++ ";").toList =
      g ++ (Keyword.measure.text.toList ++ ([' '] ++ (q.text.toList ++ ([' '] ++ (['-', '>'] ++
        ([' '] ++ (b.text.toList ++ [';']))))))) := by
    simp [Keyword.text]
  rw [htext, List.append_assoc, List.cons_append]
  exact ⟨_, hqubit.keyword .measure hg (neutral_blank _)⟩

theorem composed_barrier (hne : qs ≠ []) (hqs : ∀ q ∈ qs, q.Writable lax) (hg : Gap false g)
    (k : List Char) :
    ∃ ws, Composed lax
      (g ++ ("barrier " ++ String.intercalate "," (qs.map (·.text)) ++ ";").toList) ws
      (.keyword .barrier :: (Operand.listTokens qs ++ [.symbol .semicolon])) k := by
  obtain ⟨ws, harguments⟩ := composed_arguments hne hqs k
  have htext : g ++ ("barrier " ++ String.intercalate "," (qs.map (·.text)) ++ ";").toList =
      g ++ (Keyword.barrier.text.toList ++
        ([' '] ++ ((String.intercalate "," (qs.map (·.text))).toList ++ [';']))) := by
    simp [Keyword.text]
  rw [htext]
  exact ⟨_, harguments.keyword .barrier hg (neutral_blank _)⟩

theorem isLine_reset (hq : q.Legible) :
    IsLine (.reset q = ·) ("reset " ++ q.text ++ ";").toList := by
  refine isLine_of_spells (.keyword .reset :: q.tokens)
    (fun g k hg => composed_reset hq.writable hg k) fun hclose hspells => ?_
  obtain ⟨l, mid, rfl, hl, hspells⟩ := spells_cons.mp hspells
  exact .reset hl (operandAt_of_spells hq.inRange hclose (by decide) hspells)

theorem isLine_measure (hq : q.Legible) (hb : b.Legible) :
    IsLine (.measure q b = ·) ("measure " ++ q.text ++ " -> " ++ b.text ++ ";").toList := by
  refine isLine_of_spells (.keyword .measure :: (q.tokens ++ .symbol .arrow :: b.tokens))
    (fun g k hg => composed_measure hq.writable hb.writable hg k) fun hclose hspells => ?_
  obtain ⟨l, mid, rfl, hl, hspells⟩ := spells_cons.mp hspells
  obtain ⟨mid, hqubit, hbit⟩ := spells_append.mp hspells
  obtain ⟨arrow, mid, rfl, harrow, hbit⟩ := spells_cons.mp hbit
  exact .measure hl (operandAt_of_spells hq.inRange harrow (by decide) hqubit) harrow
    (operandAt_of_spells hb.inRange hclose (by decide) hbit)

theorem isLine_barrier (hne : qs ≠ []) (hqs : ∀ q ∈ qs, q.Legible) :
    IsLine (.barrier qs = ·)
      ("barrier " ++ String.intercalate "," (qs.map (·.text)) ++ ";").toList := by
  refine isLine_of_spells (.keyword .barrier :: Operand.listTokens qs)
    (fun g k hg => composed_barrier hne (fun q hq => (hqs q hq).writable) hg k)
    fun hclose hspells => ?_
  obtain ⟨l, mid, rfl, hl, hspells⟩ := spells_cons.mp hspells
  exact .barrier hl ((operandsAt_iff hclose).mpr ⟨hne, fun q hq => (hqs q hq).inRange, hspells⟩)

end

/-! ## Lines that are not read -/

theorem NoLine.not_reads {cs g : List Char} (h : NoLine cs) (hg : Gap false g) (k : List Char)
    (offset line : Nat) (sts : List Statement) : ¬Reads offset line (g ++ cs ++ k) sts := by
  intro ⟨ls, hls, hsts⟩
  obtain ⟨ws, ts, hcomposed, hreads⟩ := h g k hg
  obtain ⟨front, rest, hwords, htokens, rfl⟩ := hcomposed.exists_front hls
  exact hreads front hwords htokens sts rest hsts

section

open QubitRouting.Parser

variable {cs : List Char} {q b : Operand} {qs os : List Operand} {ts ts' : List Token}
  {l close : Lexeme Token} {ls ops rest rest' : Lexemes} {st : Statement}

theorem not_statementsAt_cons (h : ∀ st rest, ¬StatementAt st (l :: ls) rest)
    (sts : List Statement) : ¬StatementsAt sts (l :: ls) := by
  intro hsts
  cases hsts with
  | cons hst _ => exact h _ _ hst

theorem eq_of_append_cons_eq {α : Type} {a : α} {xs xs' ys ys' : List α}
    (h : xs ++ a :: xs' = ys ++ a :: ys') (hxs : a ∉ xs) (hys : a ∉ ys) : xs = ys := by
  rcases List.append_eq_append_iff.mp h with ⟨more, rfl, hmore⟩ | ⟨more, rfl, hmore⟩
  · cases more with
    | nil => simp
    | cons b more =>
      obtain ⟨rfl, -⟩ := List.cons.inj hmore
      exact absurd (List.mem_append_right _ List.mem_cons_self) hys
  · cases more with
    | nil => simp
    | cons b more =>
      obtain ⟨rfl, -⟩ := List.cons.inj hmore
      exact absurd (List.mem_append_right _ List.mem_cons_self) hxs

/-- Up to the first semicolon, lexemes spell one row of tokens only. -/
theorem Parser.Spells.eq_of_semicolon (h : Spells ts (ops ++ rest) (close :: rest'))
    (hclose : close.token = .symbol .semicolon)
    (hops : ops.map (·.token) = ts' ++ [.symbol .semicolon]) (hts : .symbol .semicolon ∉ ts)
    (hts' : .symbol .semicolon ∉ ts') : ts = ts' := by
  obtain ⟨front, hls, rfl⟩ := h
  have htokens := congrArg (List.map (·.token)) hls
  rw [List.map_append, List.map_append, hops, List.append_assoc, List.map_cons, hclose] at htokens
  exact (eq_of_append_cons_eq htokens hts' hts).symm

/-- Before its semicolon, a statement that starts with a keyword has no numbers but indexes. -/
theorem exists_spells_of_bodyAt {kw : Keyword} (h : BodyAt st (l :: ls) (close :: rest))
    (hl : l.token = .keyword kw) (hclose : close.token = .symbol .semicolon) :
    ∃ ts, Spells ts ls (close :: rest) ∧ .symbol .semicolon ∉ ts ∧
      ∀ n, .integer n ∈ ts → n < indexLimit := by
  have hone {o : Operand} {ls rest : Lexemes} (ho : OperandAt o ls rest) :
      ∃ ts, Spells ts ls rest ∧ .symbol .semicolon ∉ ts ∧ ∀ n, .integer n ∈ ts → n < indexLimit :=
    ⟨o.tokens, ho.spells, o.semicolon_notMem_tokens,
      fun n hn => ho.inRange n (Operand.integer_mem_tokens_iff.mp hn)⟩
  cases h with
  | includes _ hpath => exact ⟨_, hpath, by simp, by simp⟩
  | qreg _ ho | creg _ ho | reset _ ho => exact hone ho
  | @measure _ _ _ arrow _ mid _ _ hq harrow hb =>
    obtain ⟨ts, hts, hends, hrange⟩ := hone hq
    obtain ⟨ts', hts', hends', hrange'⟩ := hone hb
    have hspells := hts.trans (spells_cons.mpr ⟨arrow, mid, rfl, harrow, hts'⟩)
    refine ⟨_, hspells, by simp [hends, hends'], fun n hn => ?_⟩
    rcases List.mem_append.mp hn with hn | hn
    · exact hrange n hn
    · exact hrange' n (by simpa using hn)
  | barrier _ hos =>
    obtain ⟨-, hrange, hspells⟩ := (operandsAt_iff hclose).mp hos
    refine ⟨_, hspells, Operand.semicolon_notMem_listTokens _, fun n hn => ?_⟩
    obtain ⟨o, ho, hindex⟩ := Operand.integer_mem_listTokens_iff.mp hn
    exact hrange o ho n hindex
  | gate hl' => cases hl.symm.trans hl'

/-- A line that starts with a keyword is not read if a number in it is too large. -/
theorem noLine_of_spells {kw : Keyword} {n : Nat}
    (hcs : ∀ g k, Gap false g →
      ∃ ws, Composed True (g ++ cs) ws (.keyword kw :: (ts ++ [.symbol .semicolon])) k)
    (hends : .symbol .semicolon ∉ ts) (hn : .integer n ∈ ts) (hlarge : indexLimit ≤ n) :
    NoLine cs := by
  intro g k hg
  obtain ⟨ws, hcomposed⟩ := hcs g k hg
  refine ⟨ws, _, hcomposed, fun ls _ htokens sts rest => ?_⟩
  obtain ⟨l, ops, rfl, hl, hops⟩ := List.map_eq_cons_iff.mp htokens
  refine not_statementsAt_cons (fun st rest' => ?_) sts
  intro ⟨close, hclose, hbody⟩
  obtain ⟨ts', hspells, hends', hrange⟩ := exists_spells_of_bodyAt hbody hl hclose
  obtain rfl := hspells.eq_of_semicolon hclose hops hends' hends
  exact Nat.not_lt_of_le hlarge (hrange n hn)

theorem exists_index_of_not_inRange (h : ¬q.InRange) : ∃ n, q.index = some n ∧ indexLimit ≤ n := by
  simpa [Operand.InRange] using h

theorem noLine_reset (hq : IsName q.register) (hlarge : ¬q.InRange) :
    NoLine ("reset " ++ q.text ++ ";").toList := by
  obtain ⟨n, hn, hle⟩ := exists_index_of_not_inRange hlarge
  exact noLine_of_spells (fun g k hg => composed_reset ⟨hq, Or.inr trivial⟩ hg k)
    q.semicolon_notMem_tokens (Operand.integer_mem_tokens_iff.mpr hn) hle

theorem noLine_measure (hq : IsName q.register) (hb : b.Legible) (hlarge : ¬q.InRange) :
    NoLine ("measure " ++ q.text ++ " -> " ++ b.text ++ ";").toList := by
  obtain ⟨n, hn, hle⟩ := exists_index_of_not_inRange hlarge
  refine noLine_of_spells (fun g k hg => composed_measure ⟨hq, Or.inr trivial⟩ hb.writable hg k)
    ?_ (List.mem_append_left _ (Operand.integer_mem_tokens_iff.mpr hn)) hle
  simp [Operand.semicolon_notMem_tokens]

theorem noLine_barrier (hqs : ∀ q ∈ qs, IsName q.register) (hlarge : ∃ q ∈ qs, ¬q.InRange) :
    NoLine ("barrier " ++ String.intercalate "," (qs.map (·.text)) ++ ";").toList := by
  obtain ⟨q, hq, hlarge⟩ := hlarge
  obtain ⟨n, hn, hle⟩ := exists_index_of_not_inRange hlarge
  exact noLine_of_spells
    (fun g k hg => composed_barrier (List.ne_nil_of_mem hq)
      (fun q hq => ⟨hqs q hq, Or.inr trivial⟩) hg k)
    (Operand.semicolon_notMem_listTokens qs)
    (Operand.integer_mem_listTokens_iff.mpr ⟨q, hq, hn⟩) hle

/-- A barrier needs operands. -/
theorem noLine_barrier_nil : NoLine "barrier ;".toList := by
  intro g k hg
  have hclose := (composed_nil True k).cons gap_blank (cut_mark (c := ';') (by decide) _)
    (ofText?_symbol .semicolon)
  refine ⟨_, _, hclose.keyword .barrier hg (neutral_blank _), fun ls _ htokens sts rest => ?_⟩
  obtain ⟨l, ls, rfl, hl, htokens⟩ := List.map_eq_cons_iff.mp htokens
  obtain ⟨close, ls, rfl, hclose, -⟩ := List.map_eq_cons_iff.mp htokens
  refine not_statementsAt_cons (fun st rest' => ?_) sts
  rintro ⟨close', -, hbody⟩
  cases hbody with
  | barrier _ hoperands => exact hoperands.not_starts (starts_cons.mpr hclose)
  | includes hl' | qreg hl' | creg hl' | measure hl' | reset hl' | gate hl' =>
    cases hl.symm.trans hl'

theorem noLine_gate {name : String} {params : Option String} (hname : IsName name)
    (hparams : ∀ text, params = some text → IsParams text.toList)
    (hos : ∀ o ∈ os, IsName o.register) (hlarge : ∃ o ∈ os, ¬o.InRange) :
    NoLine (name.toList ++ (paramsText params ++
      ([' '] ++ ((String.intercalate "," (os.map (·.text))).toList ++ [';'])))) := by
  intro g k hg
  obtain ⟨o, ho, hlarge⟩ := hlarge
  obtain ⟨n, hn, hle⟩ := exists_index_of_not_inRange hlarge
  obtain ⟨ws, ts, htail, hreads⟩ := composed_tail hparams (List.ne_nil_of_mem ho)
    (fun o ho => (⟨hos o ho, Or.inr trivial⟩ : o.Writable True)) k
  refine ⟨_, _, htail.name hname hg (neutral_tail params os k),
    fun ls hwords htokens sts rest => ?_⟩
  obtain ⟨l, ls, rfl, hl, hls⟩ := List.map_eq_cons_iff.mp htokens
  obtain ⟨ops, hops, htail⟩ := hreads ls (List.cons.inj hwords).2 hls
  refine not_statementsAt_cons (fun st rest' => ?_) sts
  intro ⟨close, hclose, hbody⟩
  cases hbody with
  | gate _ _ _ _ hat =>
    -- the operands before the semicolon are these, and no others
    obtain ⟨-, hrange, hspells⟩ := (operandsAt_iff hclose).mp ((htail _ _ _ _).mp hat).2
    have htokens := hspells.eq_of_semicolon hclose hops
      (Operand.semicolon_notMem_listTokens _) (Operand.semicolon_notMem_listTokens _)
    have hmem := Operand.integer_mem_listTokens_iff.mpr ⟨o, ho, hn⟩
    rw [← htokens] at hmem
    obtain ⟨o', ho', hindex⟩ := Operand.integer_mem_listTokens_iff.mp hmem
    exact Nat.not_lt_of_le hle (hrange o' ho' n hindex)
  | includes hl' | qreg hl' | creg hl' | measure hl' | reset hl' | barrier hl' =>
    cases hl.symm.trans hl'

end

end QubitRouting
