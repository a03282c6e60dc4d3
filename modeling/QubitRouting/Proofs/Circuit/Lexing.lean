import QubitRouting.Proofs.Circuit.Patterns

/-!
# Lexemes against patterns

A word that the lexer cuts off is the longest text of any pattern at its place (`Cut.length_le`),
and its token is the one that is written so (`Cut.ofText?_eq_some_iff`). Where there is no token,
nothing at that place is one, or an integer is too large (`Cut.stray`). Together with the places of
lexemes this says what becomes of a source text as a whole (`scan_exhaustive`): it is cut into words
and gaps, and nothing is lost.
-/

set_option autoImplicit false

open scoped Computability

namespace QubitRouting

/-! ## Reading what is written -/

section

open Lexeme

variable {p : Char → Bool} {w e ds k : List Char} {d : Decimal} {n : Int} {t : Token}

theorem digitsValue_eq (ds : List Char) : digitsValue ds = Decimal.natOfDigits ds := by
  rw [digitsValue, Nat.ofDigits_eq_foldr, List.foldr_map, List.foldr_reverse, Decimal.natOfDigits]
  simp only [Nat.cast_id, Nat.add_comm]

theorem dropWhile_append_eq (h : ∀ c ∈ ds, p c) (hk : ∀ c ∈ k.head?, ¬p c) :
    (ds ++ k).dropWhile p = k := by
  have hsplit := List.takeWhile_append_dropWhile (p := p) (l := ds ++ k)
  rw [takeWhile_append_eq h hk] at hsplit
  exact List.append_cancel_left hsplit

namespace ExponentText

theorem not_isDigit (h : ExponentText e n) : ∀ c ∈ e.head?, ¬c.isDigit ∧ c ≠ '.' := by
  have hmark {mark : Char} (h : mark ∈ ['e', 'E']) : ¬mark.isDigit ∧ mark ≠ '.' := by
    simp only [List.mem_cons, List.not_mem_nil, or_false] at h
    rcases h with rfl | rfl <;> decide
  intro c hc
  cases h with
  | none => cases hc
  | plain h _ => exact Option.some.inj hc ▸ hmark h
  | plus h _ => exact Option.some.inj hc ▸ hmark h
  | minus h _ => exact Option.some.inj hc ▸ hmark h

theorem exists_of_mem (h : e ∈ 1 + exponent) : ∃ n, ExponentText e n := by
  rcases (Language.mem_add _ _ _).mp h with h | h
  · obtain rfl : e = [] := h
    exact ⟨0, .none⟩
  · obtain ⟨mark, sign, ds, rfl, hmark, hsign, hds⟩ := mem_exponent.mp h
    have hmark' : mark ∈ ['e', 'E'] := by simpa using hmark
    rcases hsign with rfl | rfl | rfl
    · exact ⟨_, .plain hmark' hds⟩
    · exact ⟨_, .plus hmark' hds⟩
    · exact ⟨_, .minus hmark' hds⟩

end ExponentText

theorem Decimal.signedOfDigits_digits (h : ds ∈ many Char.isDigit) :
    signedOfDigits ds = natOfDigits ds := by
  obtain ⟨hne, hdigits⟩ := mem_many.mp h
  obtain ⟨c, cs, rfl⟩ := List.exists_cons_of_ne_nil hne
  have hc : c.isDigit := hdigits c List.mem_cons_self
  unfold signedOfDigits
  split
  · rename_i heq
    obtain ⟨rfl, -⟩ := List.cons.inj heq
    exact absurd hc (by decide)
  · rename_i heq
    obtain ⟨rfl, -⟩ := List.cons.inj heq
    exact absurd hc (by decide)
  · rfl

/-- The exponent at the end of a literal. -/
def Decimal.exponentOf : List Char → Int
  | 'e' :: rest => signedOfDigits rest
  | 'E' :: rest => signedOfDigits rest
  | _ => 0

theorem Decimal.exponentOf_eq (h : ExponentText e n) : exponentOf e = n := by
  have hmark {mark : Char} (h : mark ∈ ['e', 'E']) (rest : List Char) :
      exponentOf (mark :: rest) = signedOfDigits rest := by
    simp only [List.mem_cons, List.not_mem_nil, or_false] at h
    rcases h with rfl | rfl <;> rfl
  cases h with
  | none => rfl
  | plain h hds => rw [hmark h, digitsValue_eq, signedOfDigits_digits hds]
  | plus h hds => rw [hmark h, digitsValue_eq, signedOfDigits]
  | minus h hds => rw [hmark h, digitsValue_eq, signedOfDigits]

theorem Decimal.ofText_pointed {whole places : List Char} (hwhole : ∀ c ∈ whole, c.isDigit)
    (hplaces : ∀ c ∈ places, c.isDigit) (he : ∀ c ∈ e.head?, ¬c.isDigit) :
    ofText (whole ++ '.' :: (places ++ e)) =
      ⟨natOfDigits (whole ++ places), exponentOf e - places.length⟩ := by
  have hpoint : ∀ c ∈ ('.' :: (places ++ e)).head?, ¬c.isDigit := by simp
  have hfraction := takeWhile_append_eq hplaces he
  have htail := dropWhile_append_eq hplaces he
  rw [ofText, takeWhile_append_eq hwhole hpoint, dropWhile_append_eq hwhole hpoint]
  show Decimal.mk (natOfDigits (whole ++ (places ++ e).takeWhile Char.isDigit))
    (exponentOf ((places ++ e).dropWhile Char.isDigit) -
      ((places ++ e).takeWhile Char.isDigit).length) = _
  rw [hfraction, htail]

theorem Decimal.ofText_unpointed {whole : List Char} (hwhole : ∀ c ∈ whole, c.isDigit)
    (he : ∀ c ∈ e.head?, ¬c.isDigit ∧ c ≠ '.') :
    ofText (whole ++ e) = ⟨natOfDigits whole, exponentOf e⟩ := by
  have hstop : ∀ c ∈ e.head?, ¬c.isDigit := fun c hc => (he c hc).1
  rw [ofText, takeWhile_append_eq hwhole hstop, dropWhile_append_eq hwhole hstop]
  cases e with
  | nil => simp [exponentOf]
  | cons c e =>
    have hpoint : c ≠ '.' := (he c rfl).2
    dsimp only
    split
    · rename_i heq
      exact absurd (List.cons.inj heq).1 hpoint
    · show Decimal.mk (natOfDigits (whole ++ [])) (exponentOf (c :: e) - (0 : Nat)) = _
      rw [List.append_nil, Int.natCast_zero, Int.sub_zero]

theorem Decimal.ofText_of_writtenAs (h : d.WrittenAs w) : ofText w = d := by
  cases h with
  | pointed hwhole hplaces he =>
    rw [ofText_pointed (mem_oneOf_star.mp hwhole) (mem_oneOf_star.mp hplaces) fun c hc =>
      (he.not_isDigit c hc).1, exponentOf_eq he, digitsValue_eq]
  | scaled hwhole he =>
    rw [ofText_unpointed (mem_oneOf_star.mp hwhole) he.not_isDigit, exponentOf_eq he,
      digitsValue_eq]

/-- Every literal writes a decimal number. -/
theorem Decimal.exists_writtenAs
    (h : w ∈ Pattern.pointed.language + Pattern.fraction.language + Pattern.scaled.language) :
    ∃ d : Decimal, d.WrittenAs w := by
  rcases h with (h | h) | h
  · obtain ⟨whole, places, e, rfl, hwhole, hplaces, he⟩ := Pattern.mem_pointed.mp h
    obtain ⟨n, hn⟩ := ExponentText.exists_of_mem he
    exact ⟨_, .pointed (mem_oneOf_star.mpr (mem_many.mp hwhole).2) (mem_oneOf_star.mpr hplaces) hn⟩
  · obtain ⟨places, e, rfl, hplaces, he⟩ := Pattern.mem_fraction.mp h
    obtain ⟨n, hn⟩ := ExponentText.exists_of_mem he
    have hnone : [] ∈ (oneOf Char.isDigit)∗ := Language.nil_mem_kstar _
    exact ⟨_, .pointed hnone (mem_oneOf_star.mpr (mem_many.mp hplaces).2) hn⟩
  · obtain ⟨whole, e, rfl, hwhole, he⟩ := Pattern.mem_scaled.mp h
    obtain ⟨n, hn⟩ := ExponentText.exists_of_mem (.inr he)
    exact ⟨_, .scaled (mem_oneOf_star.mpr (mem_many.mp hwhole).2) hn⟩

namespace Token

theorem exists_cons_of_real
    (h : w ∈ Pattern.pointed.language + Pattern.fraction.language + Pattern.scaled.language) :
    ∃ c cs, w = c :: cs ∧ (c.isDigit ∨ c = '.' ∧ cs ≠ []) ∧ ∃ d ∈ w, ¬d.isDigit := by
  rcases h with (h | h) | h
  · obtain ⟨whole, places, e, rfl, hwhole, -, -⟩ := Pattern.mem_pointed.mp h
    obtain ⟨hne, hdigits⟩ := mem_many.mp hwhole
    obtain ⟨c, cs, rfl⟩ := List.exists_cons_of_ne_nil hne
    exact ⟨c, _, rfl, .inl (hdigits c List.mem_cons_self), '.', by simp, by decide⟩
  · obtain ⟨places, e, rfl, hplaces, -⟩ := Pattern.mem_fraction.mp h
    obtain ⟨hne, -⟩ := mem_many.mp hplaces
    exact ⟨'.', _, rfl, .inr ⟨rfl, by simp [hne]⟩, '.', List.mem_cons_self, by decide⟩
  · obtain ⟨whole, e, rfl, hwhole, he⟩ := Pattern.mem_scaled.mp h
    obtain ⟨hne, hdigits⟩ := mem_many.mp hwhole
    obtain ⟨c, cs, rfl⟩ := List.exists_cons_of_ne_nil hne
    obtain ⟨mark, sign, ds, rfl, -⟩ := mem_exponent.mp he
    have hmark := (not_isDigit_of_mem_exponent (k := []) he mark rfl).1
    exact ⟨c, _, rfl, .inl (hdigits c List.mem_cons_self), mark, by simp, hmark⟩

theorem ofText?_real
    (h : w ∈ Pattern.pointed.language + Pattern.fraction.language + Pattern.scaled.language) :
    ofText? w = some (.real (Binary64.ofDecimal (Decimal.ofText w))) := by
  obtain ⟨c, cs, rfl, hc, d, hd, hstray⟩ := exists_cons_of_real h
  have hstart : ¬isIdentifierStart c := by
    rcases hc with hc | ⟨rfl, -⟩
    · exact not_isIdentifierStart_of_isDigit hc
    · decide
  have hmixed : ¬(c.isDigit && cs.all Char.isDigit) = true := by
    intro hall
    have hall : ∀ x ∈ c :: cs, x.isDigit := by simpa using hall
    exact hstray (hall d hd)
  have hreal : (c.isDigit || (c = '.' && !cs.isEmpty)) = true := by
    rcases hc with hc | ⟨rfl, hne⟩
    · simp [hc]
    · simp [hne]
  rw [ofText?, if_neg hstart, if_neg hmixed, if_pos hreal]

theorem ofText?_integer (h : w ∈ Pattern.integer.language) :
    ofText? w = if digitsValue w < Nat.pow 2 64 then some (.integer (digitsValue w)) else none := by
  obtain ⟨hne, hdigits⟩ := mem_many.mp h
  obtain ⟨c, cs, rfl⟩ := List.exists_cons_of_ne_nil hne
  have hstart : ¬isIdentifierStart c :=
    not_isIdentifierStart_of_isDigit (hdigits c List.mem_cons_self)
  have hall : (c.isDigit && cs.all Char.isDigit) = true := by simpa using hdigits
  rw [ofText?, if_neg hstart, if_pos hall, digitsValue_eq]
  rfl

/-- A text that writes a token is read as that token. -/
theorem ofText?_of_writtenAs (h : t.WrittenAs w) : ofText? w = some t := by
  cases t with
  | keyword k =>
    obtain rfl : w = k.text.toList := h
    cases k <;> rfl
  | symbol s =>
    obtain rfl : w = s.text.toList := h
    exact ofText?_symbol s
  | real value =>
    obtain ⟨hmem, d, hd, rfl⟩ := h
    rw [ofText?_real hmem, Decimal.ofText_of_writtenAs hd]
  | integer value =>
    obtain ⟨hmem, rfl, hlt⟩ := h
    rw [ofText?_integer hmem, if_pos hlt]
  | string content =>
    obtain ⟨-, rfl⟩ := h
    rw [ofText?_string, String.ofList_toList]
  | identifier name =>
    obtain ⟨hmem, hname, hkeyword⟩ := h
    obtain ⟨c, cs, rfl, hc, -⟩ := Pattern.mem_identifier.mp hmem
    have hword : String.ofList (c :: cs) = name := by rw [hname, String.ofList_toList]
    have hnone : Keyword.ofText? name = none := by
      rw [Keyword.ofText?, List.find?_eq_none]
      intro k _ hk
      rw [decide_eq_true_eq] at hk
      exact hkeyword k (by rw [hname, ← hk]; rfl)
    simp only [ofText?, if_pos hc, hword, hnone]

theorem exists_writtenAs_real
    (h : w ∈ Pattern.pointed.language + Pattern.fraction.language + Pattern.scaled.language) :
    ∃ t : Token, t.WrittenAs w := by
  obtain ⟨d, hd⟩ := Decimal.exists_writtenAs h
  exact ⟨.real (Binary64.ofDecimal d), h, d, hd, rfl⟩

theorem exists_writtenAs_identifier (h : w ∈ Pattern.identifier.language) :
    ∃ t : Token, t.WrittenAs w := by
  by_cases hkeyword : ∃ k, w ∈ (Pattern.keyword k).language
  · obtain ⟨k, hk⟩ := hkeyword
    exact ⟨.keyword k, hk⟩
  · exact ⟨.identifier (String.ofList w), h, String.toList_ofList.symm,
      fun k hk => hkeyword ⟨k, hk⟩⟩

end Token

/-! ## Words that are cut off -/

namespace Lexeme

/-- How the texts of patterns begin. -/
inductive Opens : List Char → Prop where
  | blank {c : Char} {cs : List Char} : isBlank c → Opens (c :: cs)
  | slashes {cs : List Char} : Opens ('/' :: '/' :: cs)
  | identifier {c : Char} {cs : List Char} : Token.isIdentifierStart c → Opens (c :: cs)
  | digit {c : Char} {cs : List Char} : c.isDigit → Opens (c :: cs)
  | point {c : Char} {cs : List Char} : c.isDigit → Opens ('.' :: c :: cs)
  | quote {cs : List Char} : '"' ∈ cs → Opens ('"' :: cs)
  | symbol (s : Symbol) : Opens s.text.toList

theorem opens_of_digits (h : ds ∈ many Char.isDigit) (k : List Char) : Opens (ds ++ k) := by
  obtain ⟨hne, hdigits⟩ := mem_many.mp h
  obtain ⟨c, cs, rfl⟩ := List.exists_cons_of_ne_nil hne
  exact .digit (hdigits c List.mem_cons_self)

theorem opens_of_mem {q : Pattern} (h : w ∈ q.language) : Opens w := by
  cases q with
  | blanks =>
    obtain ⟨hne, hblanks⟩ := mem_many.mp h
    obtain ⟨c, cs, rfl⟩ := List.exists_cons_of_ne_nil hne
    exact .blank (hblanks c List.mem_cons_self)
  | comment =>
    obtain ⟨body, -, rfl⟩ := mem_literal_mul.mp h
    exact .slashes
  | keyword k =>
    obtain rfl : w = k.text.toList := h
    obtain ⟨c, cs, hw, hc, -⟩ := Pattern.mem_identifier.mp (mem_identifier_of_keyword k)
    rw [hw]
    exact .identifier hc
  | identifier =>
    obtain ⟨c, cs, rfl, hc, -⟩ := Pattern.mem_identifier.mp h
    exact .identifier hc
  | symbol s =>
    obtain rfl : w = s.text.toList := h
    exact .symbol s
  | integer => exact List.append_nil w ▸ opens_of_digits h []
  | pointed =>
    obtain ⟨whole, places, e, rfl, hwhole, -, -⟩ := Pattern.mem_pointed.mp h
    exact opens_of_digits hwhole _
  | scaled =>
    obtain ⟨whole, e, rfl, hwhole, -⟩ := Pattern.mem_scaled.mp h
    exact opens_of_digits hwhole _
  | fraction =>
    obtain ⟨places, e, rfl, hplaces, -⟩ := Pattern.mem_fraction.mp h
    obtain ⟨hne, hdigits⟩ := mem_many.mp hplaces
    obtain ⟨d, ds, rfl⟩ := List.exists_cons_of_ne_nil hne
    exact .point (hdigits d List.mem_cons_self)
  | string =>
    obtain ⟨body, rfl, -⟩ := Pattern.mem_string.mp h
    exact .quote (by simp)

/-- A word in front of `k` that is no token: it is an integer that is too large, or nothing here is
a token and the word is a single character or a string that is never closed. -/
def Stray (w k : List Char) : Prop :=
  w ∈ Pattern.integer.language ∧ Nat.pow 2 64 ≤ digitsValue w ∨
    (∀ q : Pattern, ∀ u ∈ q.language, ¬u <+: w ++ k) ∧
      (w.length = 1 ∨ k = [] ∧ ∃ body, w = '"' :: body ∧ '"' ∉ body)

theorem Cut.length_le (h : Cut w k) {q : Pattern} {u : List Char} (hu : u ∈ q.language)
    (hreach : u <+: w ++ k) :
    u.length ≤ w.length := by
  obtain ⟨c, cs, rfl, hsolid, hextent⟩ := h
  obtain ⟨v, huv⟩ := hreach
  rw [List.cons_append] at hsolid huv
  have hle := length_le_extent hsolid hu huv
  rwa [hextent] at hle

/-- An open string reaches to the end. -/
theorem unclosed_of_extent {cs : List Char} (h : extent '"' (cs ++ k) = cs.length)
    (hlast : cs.getLast? ≠ some '"') : '"' ∉ cs ∧ k = [] := by
  have hnone : '"' ∉ cs ++ k := by
    intro hmem
    obtain ⟨body, after, hsplit, hbody⟩ := List.eq_append_cons_of_mem hmem
    rw [hsplit, extent_string hbody] at h
    have hcs : cs = body ++ ['"'] := by
      have htake : (cs ++ k).take cs.length = (body ++ '"' :: after).take (body.length + 1) := by
        rw [hsplit, h]
      rwa [List.take_left, List.take_length_add_append] at htake
    exact hlast (by rw [hcs, List.getLast?_concat])
  have hall : (cs ++ k).takeWhile (· != '"') = cs ++ k := by
    rw [List.takeWhile_eq_self_iff]
    intro c hc
    rw [bne_iff_ne]
    rintro rfl
    exact hnone hc
  rw [extent_quote, hall, List.drop_length, List.length_append] at h
  have hk : k.length = 0 := by
    have hzero : Nat.min ([] : List Char).length 1 = 0 := rfl
    omega
  exact ⟨fun hmem => hnone (List.mem_append_left k hmem), List.eq_nil_of_length_eq_zero hk⟩

theorem not_opens_unclosed {cs : List Char} (h : '"' ∉ cs) {u : List Char} (hu : Opens u) :
    ¬u <+: '"' :: cs := by
  rintro ⟨v, huv⟩
  cases hu with
  | blank hc =>
    obtain ⟨rfl, -⟩ := List.cons.inj huv
    exact absurd hc (by decide)
  | slashes => exact absurd (List.cons.inj huv).1 (by decide)
  | identifier hc =>
    obtain ⟨rfl, -⟩ := List.cons.inj huv
    exact absurd hc (by decide)
  | digit hc =>
    obtain ⟨rfl, -⟩ := List.cons.inj huv
    exact absurd hc (by decide)
  | point hc => exact absurd (List.cons.inj huv).1 (by decide)
  | quote hmem =>
    rw [List.cons_append] at huv
    obtain ⟨-, rfl⟩ := List.cons.inj huv
    exact h (List.mem_append_left v hmem)
  | symbol s => cases s <;> exact absurd (List.cons.inj huv).1 (by decide)

/-- A character that starts no token, in front of `k`. -/
theorem not_opens_character {c : Char} (hsolid : Solid (c :: k))
    (hstart : ¬Token.isIdentifierStart c)
    (hdigit : ¬c.isDigit) (hquote : c ≠ '"') (hpoint : ¬(c = '.' ∧ ∃ d ∈ k.head?, d.isDigit))
    (hequals : ¬(c = '=' ∧ k.head? = some '='))
    (hsymbol : Symbol.ofText? (String.ofList [c]) = none)
    {u : List Char} (hu : Opens u) : ¬u <+: c :: k := by
  obtain ⟨hblank, hslashes⟩ := solid_cons.mp hsolid
  rintro ⟨v, huv⟩
  cases hu with
  | blank hc =>
    obtain ⟨rfl, -⟩ := List.cons.inj huv
    exact hblank hc
  | slashes =>
    obtain ⟨rfl, rfl⟩ := List.cons.inj huv
    exact hslashes ⟨rfl, rfl⟩
  | identifier hc =>
    obtain ⟨rfl, -⟩ := List.cons.inj huv
    exact hstart hc
  | digit hc =>
    obtain ⟨rfl, -⟩ := List.cons.inj huv
    exact hdigit hc
  | point hd =>
    obtain ⟨rfl, rfl⟩ := List.cons.inj huv
    exact hpoint ⟨rfl, _, rfl, hd⟩
  | quote => exact hquote (List.cons.inj huv).1.symm
  | symbol s =>
    cases s with
    | equals =>
      obtain ⟨rfl, rfl⟩ := List.cons.inj huv
      exact hequals ⟨rfl, rfl⟩
    | _ =>
      obtain ⟨rfl, -⟩ := List.cons.inj huv
      exact absurd hsymbol (by decide)

theorem character_or_stray {c : Char} (hsolid : Solid (c :: k))
    (hstart : ¬Token.isIdentifierStart c)
    (hdigit : ¬c.isDigit) (hquote : c ≠ '"') (hpoint : ¬(c = '.' ∧ ∃ d ∈ k.head?, d.isDigit))
    (hequals : ¬(c = '=' ∧ k.head? = some '=')) :
    (∃ t : Token, t.WrittenAs [c]) ∨ Token.ofText? [c] = none ∧ Stray [c] k := by
  cases hsymbol : Symbol.ofText? (String.ofList [c]) with
  | some s =>
    have htext := List.find?_some hsymbol
    rw [decide_eq_true_eq] at htext
    have hword : [c] = s.text.toList := by rw [htext, String.toList_ofList]
    exact .inl ⟨.symbol s, hword⟩
  | none =>
    refine .inr ⟨?_, .inr ⟨fun q u hu => ?_, .inl rfl⟩⟩
    · rw [Token.ofText?, if_neg hstart, if_neg (by simp [hdigit]), if_neg (by simp [hdigit]),
        if_neg hquote, hsymbol]
      rfl
    · exact not_opens_character hsolid hstart hdigit hquote hpoint hequals hsymbol (opens_of_mem hu)

theorem extent_other {c d : Char} {ds : List Char} (hstart : ¬Token.isIdentifierStart c)
    (hdigit : ¬c.isDigit) (hquote : c ≠ '"') (hpoint : ¬(c = '.' ∧ d.isDigit)) :
    extent c (d :: ds) = if c = '-' ∧ d = '>' ∨ c = '=' ∧ d = '=' then 1 else 0 := by
  unfold extent
  rw [if_neg hstart, if_neg hdigit, if_neg hquote]
  dsimp only
  rw [if_neg (by simpa using hpoint)]
  simp only [Bool.or_eq_true, Bool.and_eq_true, decide_eq_true_eq]

theorem ofText?_unclosed {cs : List Char} (h : cs.getLast? ≠ some '"') :
    Token.ofText? ('"' :: cs) = none := by
  have hdigit : Char.isDigit '"' = false := rfl
  rw [Token.ofText?, if_neg (by decide), if_neg (by simp [hdigit]), if_neg (by simp [hdigit]),
    if_pos rfl, if_neg h]

/-- A word that is cut off is that of a token, or none. -/
theorem Cut.writtenAs_or_stray (h : Cut w k) :
    (∃ t : Token, t.WrittenAs w) ∨ Token.ofText? w = none ∧ Stray w k := by
  obtain ⟨c, cs, rfl, hsolid, hextent⟩ := h
  have htake : (cs ++ k).take (extent c (cs ++ k)) = cs := by rw [hextent, List.take_left]
  by_cases hstart : Token.isIdentifierStart c
  · refine .inl (Token.exists_writtenAs_identifier
      (Pattern.mem_identifier.mpr ⟨c, cs, rfl, hstart, ?_⟩))
    unfold extent at htake
    rw [if_pos hstart, ← List.prefix_iff_eq_take.mp (List.takeWhile_prefix _)] at htake
    intro d hd
    rw [← htake] at hd
    exact List.mem_takeWhile_imp hd
  by_cases hdigit : c.isDigit
  · have hnumber := take_extent_digit hdigit (cs ++ k)
    rw [htake] at hnumber
    rcases hnumber with (hmem | hmem) | hmem
    · exact .inl (Token.exists_writtenAs_real (.inl (.inl hmem)))
    · exact .inl (Token.exists_writtenAs_real (.inr hmem))
    · by_cases hlt : digitsValue (c :: cs) < Nat.pow 2 64
      · exact .inl ⟨.integer _, hmem, rfl, hlt⟩
      · exact .inr ⟨by rw [Token.ofText?_integer hmem, if_neg hlt],
          .inl ⟨hmem, Nat.le_of_not_lt hlt⟩⟩
  by_cases hquote : c = '"'
  · subst hquote
    by_cases hlast : cs.getLast? = some '"'
    · obtain ⟨body, rfl, hbody⟩ := exists_body_of_extent hextent hlast
      exact .inl ⟨.string (String.ofList body), Pattern.mem_string.mpr ⟨body, rfl, hbody⟩, by
        rw [String.toList_ofList]⟩
    · obtain ⟨hcs, rfl⟩ := unclosed_of_extent hextent hlast
      refine .inr ⟨?_, .inr ⟨fun q u hu => ?_, .inr ⟨rfl, cs, rfl, hcs⟩⟩⟩
      · exact ofText?_unclosed hlast
      · rw [List.append_nil]
        exact not_opens_unclosed hcs (opens_of_mem hu)
  -- what is left are symbols, reals that start with a point, and characters of no token
  rw [List.cons_append] at hsolid
  cases hrest : cs ++ k with
  | nil =>
    obtain ⟨rfl, rfl⟩ := List.append_eq_nil_iff.mp hrest
    exact character_or_stray hsolid hstart hdigit hquote (by simp) (by simp)
  | cons d ds =>
    rw [hrest] at hsolid hextent htake
    by_cases hpoint : c = '.' ∧ d.isDigit
    · obtain ⟨rfl, hd⟩ := hpoint
      obtain ⟨e, he, hdigits⟩ := take_digitsExtent (d :: ds)
      rw [extent_point hd, hdigits] at htake
      have hplaces : (d :: ds).takeWhile Char.isDigit ∈ many Char.isDigit :=
        mem_many.mpr ⟨by simp [List.takeWhile_cons_of_pos hd],
          fun x hx => List.mem_takeWhile_imp hx⟩
      refine .inl (Token.exists_writtenAs_real
        (.inl (.inr (Pattern.mem_fraction.mpr ⟨_, e, ?_, hplaces, he⟩))))
      rw [htake]
    · rw [extent_other hstart hdigit hquote hpoint] at hextent
      split at hextent
      · rename_i hpair
        obtain ⟨x, rfl⟩ := List.length_eq_one_iff.mp hextent.symm
        obtain ⟨rfl, -⟩ := List.cons.inj hrest
        rcases hpair with ⟨rfl, rfl⟩ | ⟨rfl, rfl⟩
        · exact .inl ⟨.symbol .arrow, rfl⟩
        · exact .inl ⟨.symbol .equals, rfl⟩
      · rename_i hsingle
        obtain rfl := List.eq_nil_of_length_eq_zero hextent.symm
        rw [List.nil_append] at hrest
        subst hrest
        refine character_or_stray hsolid hstart hdigit hquote ?_ ?_
        · rintro ⟨hc, x, hx, hdigit⟩
          obtain rfl : d = x := Option.some.inj hx
          exact hpoint ⟨hc, hdigit⟩
        · rintro ⟨hc, hd⟩
          exact hsingle (.inr ⟨hc, Option.some.inj hd⟩)

/-- **The token of a word that is cut off is the one that is written so.** -/
theorem Cut.ofText?_eq_some_iff (h : Cut w k) : Token.ofText? w = some t ↔ t.WrittenAs w := by
  refine ⟨fun htoken => ?_, Token.ofText?_of_writtenAs⟩
  rcases h.writtenAs_or_stray with ⟨t', ht'⟩ | ⟨hnone, -⟩
  · obtain rfl := Option.some.inj ((Token.ofText?_of_writtenAs ht').symm.trans htoken)
    exact ht'
  · rw [hnone] at htoken
    cases htoken

theorem Cut.stray (h : Cut w k) (hnone : Token.ofText? w = none) : Stray w k := by
  rcases h.writtenAs_or_stray with ⟨t, ht⟩ | ⟨-, hstray⟩
  · rw [Token.ofText?_of_writtenAs ht] at hnone
    cases hnone
  · exact hstray

/-! ## Gaps -/

theorem append_mem_skips {a b : List Char}
    (ha : a ∈ Pattern.blanks.language + Pattern.comment.language * literal "\n")
    (hb : b ∈ skips) : a ++ b ∈ skips := by
  obtain ⟨parts, rfl, hparts⟩ := Language.mem_kstar.mp hb
  exact Language.mem_kstar.mpr ⟨a :: parts, rfl, List.forall_mem_cons.mpr ⟨ha, hparts⟩⟩

theorem cons_mem_skips {c : Char} {g : List Char} (hc : isBlank c) (hg : g ∈ skips) :
    c :: g ∈ skips := by
  have hblank : [c] ∈ Pattern.blanks.language :=
    mem_many.mpr ⟨List.cons_ne_nil c [], List.forall_mem_singleton.mpr hc⟩
  exact append_mem_skips (.inl hblank) hg

theorem mem_comment {body : List Char} (h : '\n' ∉ body) :
    '/' :: '/' :: body ∈ Pattern.comment.language := by
  refine mem_literal_mul.mpr ⟨body, mem_oneOf_star.mpr fun c hc => ?_, rfl⟩
  rw [bne_iff_ne]
  rintro rfl
  exact h hc

theorem comment_mem_skips {body g : List Char} (h : '\n' ∉ body) (hg : g ∈ skips) :
    '/' :: '/' :: (body ++ '\n' :: g) ∈ skips := by
  have hline : '/' :: '/' :: body ++ ['\n'] ∈ Pattern.comment.language * literal "\n" :=
    Language.append_mem_mul (mem_comment h) rfl
  have hskips := append_mem_skips (.inr hline) hg
  rwa [List.append_assoc, List.singleton_append] at hskips

/-- What ends a source: a gap, or one with a comment on the last line. -/
def Ending (g : List Char) : Prop := g ∈ skips ∨ g ∈ skips * Pattern.comment.language

theorem Ending.blank {c : Char} {g : List Char} (hc : isBlank c) (h : Ending g) :
    Ending (c :: g) := by
  rcases h with h | h
  · exact .inl (cons_mem_skips hc h)
  · obtain ⟨a, ha, b, hb, rfl⟩ := Language.mem_mul.mp h
    exact .inr (Language.append_mem_mul (cons_mem_skips hc ha) hb)

theorem Ending.comment {body g : List Char} (hbody : '\n' ∉ body) (h : Ending g) :
    Ending ('/' :: '/' :: (body ++ '\n' :: g)) := by
  rcases h with h | h
  · exact .inl (comment_mem_skips hbody h)
  · obtain ⟨a, ha, b, hb, rfl⟩ := Language.mem_mul.mp h
    have hmul := Language.append_mem_mul (comment_mem_skips hbody ha) hb
    refine .inr ?_
    simpa using hmul

/-- Inside a comment: the rest of it, and what follows on the next line. -/
theorem Gap.mem_skips {inComment : Bool} {g : List Char} (h : Gap inComment g) :
    (inComment = false → g ∈ skips) ∧
      (inComment = true → ∃ body rest, g = body ++ '\n' :: rest ∧ '\n' ∉ body ∧ rest ∈ skips) := by
  induction h with
  | nil => exact ⟨fun _ => Language.nil_mem_kstar _, by simp⟩
  | blank hc hg ih => exact ⟨fun _ => cons_mem_skips hc (ih.1 rfl), by simp⟩
  | slashes hg ih =>
    refine ⟨fun _ => ?_, by simp⟩
    obtain ⟨body, rest, rfl, hbody, hrest⟩ := ih.2 rfl
    exact comment_mem_skips hbody hrest
  | @within c g hc hg ih =>
    refine ⟨by simp, fun _ => ?_⟩
    obtain ⟨body, rest, rfl, hbody, hrest⟩ := ih.2 rfl
    exact ⟨c :: body, rest, rfl, by simp [hbody, Ne.symm hc], hrest⟩
  | @lineEnd g hg ih => exact ⟨by simp, fun _ => ⟨[], g, rfl, by simp, ih.1 rfl⟩⟩

theorem ending_of_gap {inComment : Bool} {cs : List Char} (h : gap inComment cs = cs) :
    (inComment = false → Ending cs) ∧
      (inComment = true → '\n' ∉ cs ∨ ∃ body rest,
      cs = body ++ '\n' :: rest ∧ '\n' ∉ body ∧ Ending rest) := by
  fun_induction gap inComment cs with
  | case1 b => exact ⟨fun _ => .inl (Language.nil_mem_kstar _), fun _ => .inl (by simp)⟩
  | case2 c cs ih =>
    refine ⟨by simp, fun _ => ?_⟩
    have hcs := ih (List.cons.inj h).2
    by_cases hc : c = '\n'
    · subst hc
      exact .inr ⟨[], cs, rfl, by simp, hcs.1 rfl⟩
    · have hopen : (c != '\n') = true := by simpa using hc
      rcases hcs.2 hopen with hnone | ⟨body, rest, rfl, hbody, hrest⟩
      · exact .inl (by simp [hnone, Ne.symm hc])
      · exact .inr ⟨c :: body, rest, rfl, by simp [hbody, Ne.symm hc], hrest⟩
  | case3 cs ih =>
    refine ⟨fun _ => ?_, by simp⟩
    rcases (ih (List.cons.inj (List.cons.inj h).2).2).2 rfl with hnone | ⟨body, rest, rfl,
      hbody, hrest⟩
    · exact .inr (Language.append_mem_mul (Language.nil_mem_kstar _) (mem_comment hnone))
    · exact hrest.comment hbody
  | case4 c cs hslashes hc ih =>
    exact ⟨fun _ => ((ih (List.cons.inj h).2).1 rfl).blank hc, by simp⟩
  | case5 c cs hslashes hc => cases h

/-! ## Whole sources -/

/-- The stretches that lexemes leave, from byte to byte: in front of each, and behind the last. -/
def stretches {τ : Type} (size : Nat) : Nat → List (Lexeme τ) → List (Nat × Nat)
  | offset, [] => [(offset, size)]
  | offset, l :: ls => (offset, l.start) :: stretches size l.stop ls

/-- What becomes of a source. -/
structure Exhausts (source : List Char) (ls : List (Lexeme (Option Token))) : Prop where
  /-- No lexeme is empty, and all are inside the source. -/
  inside : ∀ l ∈ ls, l.start < l.stop ∧ l.stop ≤ byteLength source
  /-- Each lexeme starts behind the ones before it. -/
  ordered : ls.Pairwise fun l l' => l.stop ≤ l'.start
  /-- All else is skipped. Only the last comment may end without its line. -/
  gaps : ∀ stretch ∈ stretches (byteLength source) 0 ls, ∃ g, Slice source stretch.1 stretch.2 g ∧
    (g ∈ skips ∨ stretch.2 = byteLength source ∧ g ∈ skips * Pattern.comment.language)
  /-- At its place a lexeme is the longest text of any pattern, and its token is the one with that
  text. A lexeme without a token stands where there is none. -/
  words : ∀ l ∈ ls, ∃ before after, source = before ++ (l.text ++ after) ∧
    byteLength before = l.start ∧
    (∀ t, l.token = some t ↔ t.WrittenAs l.text) ∧
    (∀ q : Pattern, ∀ u ∈ q.language, u <+: l.text ++ after → u.length ≤ l.text.length) ∧
    (l.token = none → Stray l.text after)

section

variable {τ : Type} {source tail : List Char} {offset line : Nat} {ls : List (Lexeme τ)}

theorem Located.le_start (h : Located offset line ls) : ∀ l ∈ ls, offset ≤ l.start := by
  induction ls generalizing offset line with
  | nil => simp
  | cons l ls ih =>
    obtain ⟨hstart, -, hmore⟩ := h
    have hstop : offset ≤ l.stop := by
      rw [stop, hstart]
      omega
    rw [List.forall_mem_cons]
    exact ⟨by omega, fun l' hl' => Nat.le_trans hstop (ih hmore l' hl')⟩

theorem Located.ordered (h : Located offset line ls) :
    ls.Pairwise fun l l' => l.stop ≤ l'.start := by
  induction ls generalizing offset line with
  | nil => exact .nil
  | cons l ls ih =>
    obtain ⟨-, -, hmore⟩ := h
    exact .cons hmore.le_start (ih hmore)

theorem exists_cut_of_mem (before : List Char)
    (hsource : source = before ++ render (ls.map word) tail)
    (hlocated : Located (byteLength before) line ls) (hseparated : Separated (ls.map word) tail) :
    ∀ l ∈ ls, ∃ front after, source = front ++ (l.text ++ after) ∧ byteLength front = l.start ∧
      Cut l.text after := by
  induction ls generalizing before line with
  | nil => simp
  | cons l ls ih =>
    obtain ⟨hstart, -, hmore⟩ := hlocated
    obtain ⟨-, hcut, hrest⟩ := hseparated
    rw [List.map_cons, render_cons, word] at hsource
    have hfront : source = (before ++ l.skipped) ++ (l.text ++ render (ls.map word) tail) := by
      rw [hsource, List.append_assoc]
    have hlength : byteLength (before ++ l.skipped) = l.start := by rw [byteLength_append, hstart]
    refine List.forall_mem_cons.mpr ⟨⟨_, _, hfront, hlength, hcut⟩, ?_⟩
    have hbehind : byteLength (before ++ l.skipped ++ l.text) = l.stop := by
      rw [byteLength_append, hlength, stop]
    rw [← hbehind] at hmore
    refine ih _ ?_ hmore hrest
    rw [hfront, List.append_assoc (before ++ l.skipped)]

theorem exists_gap_of_mem_stretches (before : List Char)
    (hsource : source = before ++ render (ls.map word) tail)
    (hlocated : Located (byteLength before) line ls) (hseparated : Separated (ls.map word) tail)
    (htail : Ending tail) :
    ∀ stretch ∈ stretches (byteLength source) (byteLength before) ls, ∃ g,
      Slice source stretch.1 stretch.2 g ∧
      (g ∈ skips ∨ stretch.2 = byteLength source ∧ g ∈ skips * Pattern.comment.language) := by
  induction ls generalizing before line with
  | nil =>
    rw [List.map_nil, render_nil] at hsource
    refine List.forall_mem_singleton.mpr ⟨tail, ⟨before, [], ?_, rfl, ?_⟩,
      htail.imp_right fun h => ⟨rfl, h⟩⟩
    · rw [List.append_nil, hsource]
    · rw [hsource, byteLength_append]
  | cons l ls ih =>
    obtain ⟨hstart, -, hmore⟩ := hlocated
    obtain ⟨hgap, -, hrest⟩ := hseparated
    rw [List.map_cons, render_cons, word] at hsource
    refine List.forall_mem_cons.mpr
      ⟨⟨l.skipped, ⟨before, _, hsource, rfl, hstart.symm⟩, .inl ?_⟩, ?_⟩
    · exact hgap.mem_skips.1 rfl
    · have hlength : byteLength (before ++ l.skipped ++ l.text) = l.stop := by
        rw [byteLength_append, byteLength_append, ← hstart, stop]
      rw [← hlength] at hmore
      rw [← hlength]
      refine ih _ ?_ hmore hrest
      rw [hsource, List.append_assoc, List.append_assoc]

end

/-- **The lexer loses nothing.** A source is cut into words and gaps, and the words are the tokens
that the patterns say. -/
theorem scan_exhausts (source : String) : Exhausts source.toList (scan source.toList) := by
  obtain ⟨tail, htail, hsource, hseparated⟩ := separated_scanFrom 0 1 source.toList
  have hlocated := located_scanFrom 0 1 source.toList
  have hwords := exists_cut_of_mem [] hsource hlocated hseparated
  have hending : Ending tail := (ending_of_gap htail).1 rfl
  refine ⟨?_, hlocated.ordered,
    exists_gap_of_mem_stretches [] hsource hlocated hseparated hending, ?_⟩
  · intro l hl
    obtain ⟨before, after, hsplit, hstart, c, cs, hword, -⟩ := hwords l hl
    have hpos := c.utf8Size_pos
    rw [hsplit, byteLength_append, byteLength_append, stop, hword, byteLength_cons]
    omega
  · intro l hl
    obtain ⟨before, after, hsplit, hstart, hcut⟩ := hwords l hl
    have htoken := token_scanFrom 0 1 source.toList l hl
    refine ⟨before, after, hsplit, hstart, ?_, fun q u hu hreach => hcut.length_le hu hreach, ?_⟩
    · intro t
      rw [htoken, hcut.ofText?_eq_some_iff]
    · intro hnone
      exact hcut.stray (htoken ▸ hnone)

end Lexeme

end

end QubitRouting
