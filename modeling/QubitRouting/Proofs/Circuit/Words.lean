import QubitRouting.Circuit.Lexeme
import QubitRouting.Circuit.Parser
import QubitRouting.Proofs.Steps
import Mathlib.Data.List.TakeWhile

/-!
# Texts as words with gaps between them

`Lexeme.scan` finds the words of a text. Conversely a text may be put together from words: each has
a gap of blanks and comments in front of it (`Gap`) and must be cut off from the text that follows
it (`Cut`), since a word that could go on would be read as a longer one. `scanFrom_render` says that
scanning returns the words that a text was put together from, and `separated_scanFrom` that every
text is put together in this way.

Whether a word is cut off is decided by the first character behind it: `extent_append` says that all
characters that continue no word (`Neutral`) are alike in this.
-/

set_option autoImplicit false

namespace QubitRouting

namespace Lexeme

/-! ## Gaps -/

/-- Blanks and complete comments; `true` stands for the inside of a comment. -/
inductive Gap : Bool → List Char → Prop where
  | nil : Gap false []
  | blank {c : Char} {g : List Char} : isBlank c → Gap false g → Gap false (c :: g)
  | slashes {g : List Char} : Gap true g → Gap false ('/' :: '/' :: g)
  | within {c : Char} {g : List Char} : c ≠ '\n' → Gap true g → Gap true (c :: g)
  | lineEnd {g : List Char} : Gap false g → Gap true ('\n' :: g)

/-- No gap starts here. -/
def Solid : List Char → Prop
  | [] => True
  | '/' :: '/' :: _ => False
  | c :: _ => ¬isBlank c

theorem solid_cons {c : Char} {cs : List Char} :
    Solid (c :: cs) ↔ ¬isBlank c ∧ ¬(c = '/' ∧ cs.head? = some '/') := by
  unfold Solid
  split
  · contradiction
  · rename_i heq
    obtain ⟨rfl, rfl⟩ := List.cons.inj heq
    simp
  · rename_i c' cs' hslashes heq
    obtain ⟨rfl, rfl⟩ := List.cons.inj heq
    refine ⟨fun h => ⟨h, fun ⟨hc, hhead⟩ => ?_⟩, fun h => h.1⟩
    obtain ⟨rest, rfl⟩ := List.head?_eq_some_iff.mp hhead
    exact hslashes rest hc rfl

theorem gap_eq_nil_of_solid {cs : List Char} (h : Solid cs) : gap false cs = [] := by
  match cs, h with
  | [], _ => rfl
  | c :: cs, h =>
    obtain ⟨hblank, hslashes⟩ := solid_cons.mp h
    rw [gap.eq_4 _ _ fun rest hc hcs => hslashes ⟨hc, by rw [hcs]; rfl⟩, if_neg hblank]

theorem Gap.gap_append {b : Bool} {g rest : List Char} (hg : Gap b g) (hrest : Solid rest) :
    gap b (g ++ rest) = g := by
  induction hg with
  | nil => exact gap_eq_nil_of_solid hrest
  | @blank c g hc hg ih =>
    have hslash : c ≠ '/' := by
      rintro rfl
      exact absurd hc (by decide)
    rw [List.cons_append, gap.eq_4 _ _ (fun cs h _ => hslash h), if_pos hc, ih]
  | slashes hg ih => rw [List.cons_append, List.cons_append, gap, ih]
  | @within c g hc hg ih =>
    have hopen : (c != '\n') = true := by simpa using hc
    rw [List.cons_append, gap, hopen, ih]
  | lineEnd hg ih =>
    rw [List.cons_append, gap]
    exact congrArg _ ih

theorem gap_spec (b : Bool) (cs : List Char) :
    ∃ rest, cs = gap b cs ++ rest ∧ (rest ≠ [] → Gap b (gap b cs) ∧ Solid rest) := by
  fun_induction gap b cs with
  | case1 b => exact ⟨[], rfl, fun h => absurd rfl h⟩
  | case2 c cs ih =>
    obtain ⟨rest, hcs, hspec⟩ := ih
    refine ⟨rest, congrArg _ hcs, fun hne => ?_⟩
    obtain ⟨hgap, hsolid⟩ := hspec hne
    refine ⟨?_, hsolid⟩
    by_cases hc : c = '\n'
    · subst hc
      exact .lineEnd hgap
    · have hopen : (c != '\n') = true := by simpa using hc
      rw [hopen] at hgap ⊢
      exact .within hc hgap
  | case3 cs ih =>
    obtain ⟨rest, hcs, hspec⟩ := ih
    exact ⟨rest, congrArg _ (congrArg _ hcs), fun hne => ⟨.slashes (hspec hne).1, (hspec hne).2⟩⟩
  | case4 c cs hslashes hc ih =>
    obtain ⟨rest, hcs, hspec⟩ := ih
    exact ⟨rest, congrArg _ hcs, fun hne => ⟨.blank hc (hspec hne).1, (hspec hne).2⟩⟩
  | case5 c cs hslashes hc =>
    refine ⟨c :: cs, rfl, fun _ => ⟨.nil, solid_cons.mpr ⟨hc, fun ⟨hslash, hhead⟩ => ?_⟩⟩⟩
    obtain ⟨rest, rfl⟩ := List.head?_eq_some_iff.mp hhead
    exact hslashes rest hslash rfl

/-! ## The end of a word -/

/-- The text starts with a character that continues no word. -/
def Neutral : List Char → Prop
  | [] => True
  | c :: _ => ¬Token.isIdentifierRest c ∧ c ∉ ['.', '+', '-', '>', '=']

instance : (cs : List Char) → Decidable (Neutral cs)
  | [] => inferInstanceAs (Decidable True)
  | c :: _ =>
    inferInstanceAs (Decidable (¬Token.isIdentifierRest c ∧ c ∉ ['.', '+', '-', '>', '=']))

section

variable {p : Char → Bool} {c : Char} {cs k : List Char}

theorem takeWhile_append_stop (h : ∀ c ∈ k.head?, ¬p c) :
    (cs ++ k).takeWhile p = cs.takeWhile p := by
  induction cs with
  | nil =>
    match k with
    | [] => rfl
    | c :: _ => simp [h c rfl]
  | cons c cs ih => rw [List.cons_append, List.takeWhile_cons, List.takeWhile_cons, ih]

theorem Neutral.not_isIdentifierRest (h : Neutral k) :
    ∀ c ∈ k.head?, ¬Token.isIdentifierRest c := by
  match k, h with
  | [], _ => simp
  | c :: _, h => simpa using h.1

theorem Neutral.not_isDigit (h : Neutral k) : ∀ c ∈ k.head?, ¬c.isDigit := by
  intro c hc hdigit
  exact h.not_isIdentifierRest c hc (by simp [Token.isIdentifierRest, Char.isAlphanum, hdigit])

theorem drop_takeWhile_append (cs k : List Char) (p : Char → Bool) :
    (cs ++ k).drop (cs.takeWhile p).length = cs.drop (cs.takeWhile p).length ++ k :=
  List.drop_append_of_le_length (List.takeWhile_sublist p).length_le

theorem exponentExtent_append (cs : List Char) (h : Neutral k) :
    exponentExtent (cs ++ k) = exponentExtent cs := by
  match cs with
  | [] =>
    match k, h with
    | [], _ => rfl
    | c :: _, h =>
      have hmark : ¬(c = 'e' || c = 'E') := by
        intro hc
        rcases Bool.or_eq_true_iff.mp hc with hc | hc <;> rw [decide_eq_true_eq] at hc <;> subst hc
        · exact h.1 (by decide)
        · exact h.1 (by decide)
      simp only [List.nil_append, exponentExtent, hmark, if_false, Bool.false_eq_true]
  | [mark] =>
    match k, h with
    | [], _ => rfl
    | c :: _, h =>
      have hdigit : c.isDigit = false := by simpa using h.not_isDigit c rfl
      have hplus : c ≠ '+' := fun hc => h.2 (by simp [hc])
      have hminus : c ≠ '-' := fun hc => h.2 (by simp [hc])
      simp [exponentExtent, hdigit, hplus, hminus]
  | mark :: d :: ds =>
    have htake (ds : List Char) : (ds ++ k).takeWhile Char.isDigit = ds.takeWhile Char.isDigit :=
      takeWhile_append_stop h.not_isDigit
    by_cases hplus : d = '+'
    · subst hplus
      simp [exponentExtent, htake]
    · by_cases hminus : d = '-'
      · subst hminus
        simp [exponentExtent, htake]
      · have := htake (d :: ds)
        simp only [List.cons_append] at this
        simp [exponentExtent, hplus, hminus, this]

theorem digitsExtent_append (cs : List Char) (h : Neutral k) :
    digitsExtent (cs ++ k) = digitsExtent cs := by
  simp only [digitsExtent, takeWhile_append_stop h.not_isDigit, drop_takeWhile_append,
    exponentExtent_append _ h]

theorem fractionExtent_append (n : Nat) (h : Neutral k) :
    (match cs ++ k with
      | '.' :: rest => n + 1 + digitsExtent rest
      | rest => n + exponentExtent rest) =
    match cs with
    | '.' :: rest => n + 1 + digitsExtent rest
    | rest => n + exponentExtent rest := by
  match cs with
  | [] =>
    match k, h with
    | [], _ => rfl
    | d :: ds, h =>
      have hpoint : d ≠ '.' := fun hd => h.2 (by simp [hd])
      have hexponent := exponentExtent_append [] h
      rw [List.nil_append] at hexponent
      simp [hpoint, hexponent]
  | d :: ds =>
    by_cases hpoint : d = '.'
    · subst hpoint
      simp [digitsExtent_append ds h]
    · have hexponent := exponentExtent_append (d :: ds) h
      rw [List.cons_append] at hexponent
      simp [hpoint, hexponent]

/-- Of what follows a word, only the first character matters: strings apart, all that continue no
word are alike. -/
theorem extent_append (hc : c ≠ '"') (h : Neutral k) : extent c (cs ++ k) = extent c cs := by
  simp only [extent, takeWhile_append_stop h.not_isIdentifierRest,
    takeWhile_append_stop h.not_isDigit, drop_takeWhile_append, hc, if_false]
  split
  · rfl
  · split
    · exact fractionExtent_append _ h
    · cases cs with
      | nil =>
        cases k with
        | nil => rfl
        | cons d ds =>
          have hdigit : d.isDigit = false := by simpa using h.not_isDigit d rfl
          have harrow : d ≠ '>' := fun hd => h.2 (by simp [hd])
          have hequals : d ≠ '=' := fun hd => h.2 (by simp [hd])
          simp [hdigit, harrow, hequals]
      | cons d ds =>
        have hdigits := digitsExtent_append (d :: ds) h
        rw [List.cons_append] at hdigits
        simp only [List.cons_append, hdigits]

theorem length_takeWhile_le (p : Char → Bool) (cs : List Char) :
    (cs.takeWhile p).length ≤ cs.length :=
  (List.takeWhile_sublist p).length_le

theorem exponentExtent_le (cs : List Char) : exponentExtent cs ≤ cs.length := by
  fun_cases exponentExtent cs with
  | case1 | case3 | case4 => exact Nat.zero_le _
  | case2 mark cs _ sign digits hsign n _ =>
    have hdigits : n ≤ digits.length := length_takeWhile_le _ _
    have hcs : sign + digits.length = cs.length := by
      split at hsign <;> cases hsign <;> simp [Nat.add_comm]
    simp only [List.length_cons]
    omega

theorem digitsExtent_le (cs : List Char) : digitsExtent cs ≤ cs.length := by
  have hexponent := exponentExtent_le (cs.drop (cs.takeWhile Char.isDigit).length)
  have htake := length_takeWhile_le Char.isDigit cs
  rw [List.length_drop] at hexponent
  rw [digitsExtent]
  omega

theorem extent_le (c : Char) (cs : List Char) : extent c cs ≤ cs.length := by
  have htake (p : Char → Bool) := length_takeWhile_le p cs
  unfold extent
  split
  · exact htake _
  · split
    · have hdrop : (cs.drop (cs.takeWhile Char.isDigit).length).length =
          cs.length - (cs.takeWhile Char.isDigit).length := List.length_drop
      have hle := htake Char.isDigit
      dsimp only
      split
      · rename_i rest hrest
        have hdigits := digitsExtent_le rest
        rw [hrest, List.length_cons] at hdrop
        omega
      · have hexponent := exponentExtent_le (cs.drop (cs.takeWhile Char.isDigit).length)
        omega
    · split
      · have hle := htake (· != '"')
        have hdrop : (cs.drop (cs.takeWhile (· != '"')).length).length =
          cs.length - (cs.takeWhile (· != '"')).length := List.length_drop
        have hmin := Nat.min_le_left (cs.drop (cs.takeWhile (· != '"')).length).length 1
        exact Nat.le_trans (Nat.add_le_add_left hmin _) (by omega)
      · split
        · exact Nat.le_refl 0
        · rename_i d ds
          have hdigits := digitsExtent_le (d :: ds)
          split
          · exact hdigits
          · split <;> simp

end

/-- The word is read as it is where this text follows. -/
def Cut (w follow : List Char) : Prop :=
  ∃ c cs, w = c :: cs ∧ Solid (w ++ follow) ∧ extent c (cs ++ follow) = cs.length

/-! ## Scanning -/

/-- A word, and the gap in front of it. -/
abbrev Word := List Char × List Char

/-- The word that a lexeme was read from. -/
def word {τ : Type} (l : Lexeme τ) : Word := (l.skipped, l.text)

/-- The text that starts with these words and goes on with `k`. -/
def render (ws : List Word) (k : List Char) : List Char := ws.foldr (fun w k => w.1 ++ (w.2 ++ k)) k

@[simp] theorem render_nil (k : List Char) : render [] k = k := rfl

@[simp] theorem render_cons (w : Word) (ws : List Word) (k : List Char) :
    render (w :: ws) k = w.1 ++ (w.2 ++ render ws k) := rfl

theorem render_append (ws ws' : List Word) (k : List Char) :
    render (ws ++ ws') k = render ws (render ws' k) :=
  List.foldr_append

theorem render_eq_append (ws : List Word) (k : List Char) : render ws k = render ws [] ++ k := by
  induction ws with
  | nil => rfl
  | cons w ws ih => rw [render_cons, render_cons, ih, List.append_assoc, List.append_assoc]

/-- The gaps are gaps, and the words are read as they are. -/
def Separated : List Word → List Char → Prop
  | [], _ => True
  | w :: ws, k => Gap false w.1 ∧ Cut w.2 (render ws k) ∧ Separated ws k

theorem separated_append {ws ws' : List Word} {k : List Char} :
    Separated (ws ++ ws') k ↔ Separated ws (render ws' k) ∧ Separated ws' k := by
  induction ws with
  | nil => simp [Separated]
  | cons w ws ih => simp only [List.cons_append, Separated, render_append, ih, and_assoc]

theorem scanFrom_word {g w k : List Char} (hg : Gap false g) (hw : Cut w k) (offset line : Nat) :
    scanFrom offset line (g ++ (w ++ k)) =
      ⟨Token.ofText? w, w, g, offset + byteLength g, line + lineEnds g⟩ ::
        scanFrom (offset + byteLength g + byteLength w) (line + lineEnds g + lineEnds w) k := by
  obtain ⟨c, cs, rfl, hsolid, hextent⟩ := hw
  have hgap : gap false (g ++ (c :: cs ++ k)) = g := hg.gap_append hsolid
  have hdrop : (g ++ (c :: cs ++ k)).drop (gap false (g ++ (c :: cs ++ k))).length =
      c :: (cs ++ k) := by
    rw [hgap, List.drop_left]
    rfl
  rw [scanFrom]
  split
  · rename_i hnil
    exact absurd (hdrop.symm.trans hnil) (by simp)
  · rename_i c' rest hcons
    obtain ⟨rfl, rfl⟩ := List.cons.inj (hdrop.symm.trans hcons)
    simp only [hgap, hextent, List.take_left, List.drop_left]

theorem scanFrom_gap {k : List Char} (hk : gap false k = k) (offset line : Nat) :
    scanFrom offset line k = [] := by
  rw [scanFrom]
  split
  · rfl
  · rename_i hcons
    rw [hk, List.drop_length] at hcons
    exact absurd hcons (by simp)

/-- **The words that a text was put together from are found again**, and scanning goes on behind
them. -/
theorem scanFrom_render {ws : List Word} {k : List Char} (h : Separated ws k) (offset line : Nat) :
    ∃ found offset' line', scanFrom offset line (render ws k) = found ++ scanFrom offset' line' k ∧
      found.map word = ws ∧ ∀ l ∈ found, l.token = Token.ofText? l.text := by
  induction ws generalizing offset line with
  | nil => exact ⟨[], offset, line, rfl, rfl, by simp⟩
  | cons w ws ih =>
    obtain ⟨hg, hw, hws⟩ := h
    obtain ⟨found, offset', line', hscan, hwords, htokens⟩ := ih hws _ _
    refine ⟨⟨Token.ofText? w.2, w.2, w.1, offset + byteLength w.1, line + lineEnds w.1⟩ :: found,
      offset', line', ?_, ?_, List.forall_mem_cons.mpr ⟨rfl, htokens⟩⟩
    · rw [render_cons, scanFrom_word hg hw, hscan]
      rfl
    · rw [List.map_cons, hwords]
      rfl

theorem token_scanFrom (offset line : Nat) (cs : List Char) :
    ∀ l ∈ scanFrom offset line cs, l.token = Token.ofText? l.text := by
  fun_induction scanFrom offset line cs with
  | case1 => simp
  | case2 offset line cs skipped c rest hdrop n text start line' ih =>
    exact List.forall_mem_cons.mpr ⟨rfl, ih⟩

/-- **Every text is put together from its words.** -/
theorem separated_scanFrom (offset line : Nat) (cs : List Char) :
    ∃ tail, gap false tail = tail ∧ cs = render ((scanFrom offset line cs).map word) tail ∧
      Separated ((scanFrom offset line cs).map word) tail := by
  fun_induction scanFrom offset line cs with
  | case1 offset line cs skipped hdrop =>
    obtain ⟨rest, hcs, -⟩ := gap_spec false cs
    obtain rfl : rest = [] := by
      rw [hcs, List.drop_left] at hdrop
      exact hdrop
    exact ⟨cs, by simpa using hcs.symm, rfl, trivial⟩
  | case2 offset line cs skipped c rest hdrop n text start line' ih =>
    obtain ⟨rest', hcs, hspec⟩ := gap_spec false cs
    obtain rfl : rest' = c :: rest := by
      rw [hcs, List.drop_left] at hdrop
      exact hdrop
    obtain ⟨hgap, hsolid⟩ := hspec (by simp)
    obtain ⟨tail, htail, hrest, hwords⟩ := ih
    have hsplit : rest = rest.take n ++ rest.drop n := (List.take_append_drop n rest).symm
    have hn : (rest.take n).length = n := List.length_take_of_le (extent_le c rest)
    refine ⟨tail, htail, ?_, hgap, ⟨c, rest.take n, rfl, ?_, ?_⟩, hwords⟩
    · rw [List.map_cons, render_cons, ← hrest]
      show cs = gap false cs ++ (c :: rest.take n ++ rest.drop n)
      rw [List.cons_append, ← hsplit]
      exact hcs
    · show Solid (c :: rest.take n ++ render _ tail)
      rw [← hrest, List.cons_append, ← hsplit]
      exact hsolid
    · rw [← hrest, ← hsplit, hn]

/-! ## Lexemes with tokens -/

theorem tokens_eq_ok_iff {found : List (Lexeme (Option Token))} {ls : Lexemes} :
    Parser.tokens found = .ok ls ↔ found = ls.map fun l => { l with token := some l.token } := by
  induction found generalizing ls with
  | nil =>
    rw [Parser.tokens, Except.ok.injEq, eq_comm (a := [])]
    exact ⟨fun h => h ▸ rfl, fun h => (List.map_eq_nil_iff.mp h.symm).symm ▸ rfl⟩
  | cons l found ih =>
    obtain ⟨token, text, skipped, start, line⟩ := l
    cases token with
    | none =>
      rw [Parser.tokens]
      cases ls <;> simp
    | some t =>
      constructor
      · intro h
        obtain ⟨rest, hrest, h⟩ := bind_eq_ok_iff.mp h
        obtain rfl := Except.ok.inj h
        rw [ih.mp hrest]
        rfl
      · intro h
        cases ls with
        | nil => cases h
        | cons l ls =>
          obtain ⟨hl, hrest⟩ := List.cons.inj h
          cases hl
          exact bind_eq_ok_iff.mpr ⟨ls, ih.mpr hrest, rfl⟩

theorem tokens_append {found found' : List (Lexeme (Option Token))} {ls : Lexemes} :
    Parser.tokens (found ++ found') = .ok ls ↔
      ∃ ls₁ ls₂, Parser.tokens found = .ok ls₁ ∧ Parser.tokens found' = .ok ls₂ ∧
      ls = ls₁ ++ ls₂ := by
  simp only [tokens_eq_ok_iff]
  constructor
  · intro h
    obtain ⟨ls₁, ls₂, rfl, h₁, h₂⟩ := List.map_eq_append_iff.mp h.symm
    exact ⟨ls₁, ls₂, h₁.symm, h₂.symm, rfl⟩
  · intro ⟨ls₁, ls₂, h₁, h₂, hls⟩
    rw [hls, List.map_append, h₁, h₂]

/-- Lexemes that all have tokens. -/
theorem exists_lexemes {found : List (Lexeme (Option Token))} {ts : List Token}
    (h : found.map (·.token) = ts.map some) :
    ∃ ls, Parser.tokens found = .ok ls ∧ ls.map word = found.map word ∧ ls.map (·.token) = ts := by
  induction found generalizing ts with
  | nil =>
    cases ts with
    | nil => exact ⟨[], rfl, rfl, rfl⟩
    | cons => cases h
  | cons l found ih =>
    cases ts with
    | nil => cases h
    | cons t ts =>
      obtain ⟨hl, hmore⟩ : l.token = some t ∧ found.map (·.token) = ts.map some := List.cons.inj h
      obtain ⟨ls, hls, hwords, htokens⟩ := ih hmore
      refine ⟨{ l with token := t } :: ls, ?_, congrArg _ hwords, congrArg _ htokens⟩
      rw [Parser.tokens, hl]
      exact bind_eq_ok_iff.mpr ⟨ls, hls, rfl⟩

/-- Lexemes that stand in front of the text `k`. -/
structure Scanned (ls : Lexemes) (k : List Char) : Prop where
  separated : Separated (ls.map word) k
  token : ∀ l ∈ ls, Token.ofText? l.text = some l.token

theorem scanned_append {ls ls' : Lexemes} {k : List Char} :
    Scanned (ls ++ ls') k ↔ Scanned ls (render (ls'.map word) k) ∧ Scanned ls' k := by
  constructor
  · intro ⟨hsep, htok⟩
    rw [List.map_append, separated_append] at hsep
    rw [List.forall_mem_append] at htok
    exact ⟨⟨hsep.1, htok.1⟩, hsep.2, htok.2⟩
  · intro ⟨⟨hsep, htok⟩, hsep', htok'⟩
    refine ⟨?_, List.forall_mem_append.mpr ⟨htok, htok'⟩⟩
    rw [List.map_append, separated_append]
    exact ⟨hsep, hsep'⟩

theorem token_of_tokens {cs : List Char} {ls : Lexemes} (h : Parser.tokens (scan cs) = .ok ls) :
    (scan cs).map word = ls.map word ∧ ∀ l ∈ ls, Token.ofText? l.text = some l.token := by
  have hscan := tokens_eq_ok_iff.mp h
  have htoken := token_scanFrom 0 1 cs
  rw [scan] at hscan
  refine ⟨?_, fun l hl => ?_⟩
  · rw [scan, hscan, List.map_map]
    rfl
  · rw [hscan] at htoken
    exact (htoken _ (List.mem_map_of_mem hl)).symm

theorem scanned_of_tokens {cs : List Char} {ls : Lexemes} (h : Parser.tokens (scan cs) = .ok ls) :
    ∃ tail, Scanned ls tail := by
  obtain ⟨hwords, htoken⟩ := token_of_tokens h
  obtain ⟨tail, -, -, hsep⟩ := separated_scanFrom 0 1 cs
  refine ⟨tail, ?_, htoken⟩
  rw [← hwords]
  exact hsep

/-! ## Words in another place -/

theorem extent_quote (cs : List Char) : extent '"' cs = (cs.takeWhile (· != '"')).length +
    (cs.drop (cs.takeWhile (· != '"')).length).length.min 1 := by
  unfold extent
  rw [if_neg (by decide), if_neg (by decide), if_pos rfl]

theorem takeWhile_quote {body : List Char} (h : '"' ∉ body) (k : List Char) :
    (body ++ '"' :: k).takeWhile (· != '"') = body := by
  rw [takeWhile_append_stop (by simp), List.takeWhile_eq_self_iff]
  intro c hc
  rw [bne_iff_ne]
  rintro rfl
  exact h hc

theorem extent_string {body : List Char} (h : '"' ∉ body) (k : List Char) :
    extent '"' (body ++ '"' :: k) = body.length + 1 := by
  rw [extent_quote, takeWhile_quote h, List.drop_left, List.length_cons]
  exact congrArg _ (Nat.min_eq_right (Nat.le_add_left 1 k.length))

theorem exists_body_of_extent {cs k : List Char} (h : extent '"' (cs ++ k) = cs.length)
    (hlast : cs.getLast? = some '"') : ∃ body, cs = body ++ ['"'] ∧ '"' ∉ body := by
  obtain ⟨body, rfl⟩ := List.getLast?_eq_some_iff.mp hlast
  refine ⟨body, rfl, fun hmem => ?_⟩
  -- a quote inside would have ended the word
  obtain ⟨before, after, rfl, hbefore⟩ := List.eq_append_cons_of_mem hmem
  rw [List.append_assoc, List.append_assoc, List.cons_append, extent_string hbefore] at h
  simp only [List.length_append, List.length_cons] at h
  omega

/-- A word stays the same word if the text behind it is changed where no word is continued. -/
theorem Cut.congr {w x k k' : List Char} {t : Token} (h : Cut w (x ++ k))
    (htoken : Token.ofText? w = some t) (hk : Neutral k) (hk' : Neutral k')
    (hslash : k'.head? ≠ some '/') : Cut w (x ++ k') := by
  obtain ⟨c, cs, rfl, hsolid, hextent⟩ := h
  refine ⟨c, cs, rfl, ?_, ?_⟩
  · rw [List.cons_append] at hsolid ⊢
    obtain ⟨hblank, hcomment⟩ := solid_cons.mp hsolid
    refine solid_cons.mpr ⟨hblank, fun ⟨hc, hhead⟩ => hcomment ⟨hc, ?_⟩⟩
    cases hcs : cs ++ x with
    | nil =>
      rw [← List.append_assoc, hcs] at hhead
      exact absurd hhead hslash
    | cons d ds =>
      rw [← List.append_assoc, hcs] at hhead ⊢
      exact hhead
  · by_cases hc : c = '"'
    · subst hc
      have hlast : cs.getLast? = some '"' := by
        by_contra hopen
        have hdigit : Char.isDigit '"' = false := rfl
        rw [Token.ofText?, if_neg (by decide), if_neg (by simp [hdigit]), if_neg (by simp [hdigit]),
          if_pos rfl, if_neg hopen] at htoken
        cases htoken
      obtain ⟨body, rfl, hbody⟩ := exists_body_of_extent hextent hlast
      rw [List.append_assoc, List.singleton_append, extent_string hbody, List.length_append]
      rfl
    · rw [← List.append_assoc, extent_append hc hk] at hextent
      rw [← List.append_assoc, extent_append hc hk', hextent]

theorem Scanned.congr {ls : Lexemes} {k k' : List Char} (h : Scanned ls k) (hk : Neutral k)
    (hk' : Neutral k') (hslash : k'.head? ≠ some '/') : Scanned ls k' := by
  refine ⟨?_, h.token⟩
  obtain ⟨hsep, htoken⟩ := h
  induction ls with
  | nil => trivial
  | cons l ls ih =>
    obtain ⟨hgap, hcut, hsep⟩ := hsep
    obtain ⟨hl, htoken⟩ := List.forall_mem_cons.mp htoken
    rw [render_eq_append] at hcut
    refine ⟨hgap, ?_, ih hsep htoken⟩
    rw [render_eq_append]
    exact hcut.congr hl hk hk' hslash

end Lexeme

end QubitRouting
