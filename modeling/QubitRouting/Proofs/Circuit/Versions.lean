import QubitRouting.Proofs.Circuit.ErrorLines
import QubitRouting.Proofs.Circuit.Spacing
import QubitRouting.Proofs.Numeral.Rounding

/-!
# Versions

A source starts with its version, a number of any form. The parser does not compare that number with
two and three: it rounds it to double precision, writes it with one digit behind the point, and
looks whether the text starts with `2.`. Both roundings move numbers across the limits. What is
accepted is an interval of the numbers that literals denote (`versionRange`), and it lies lower than
the versions from two to three by about a twentieth: 1.96 passes, and 2.96 does not.
-/

set_option autoImplicit false

namespace QubitRouting

/-! ## Numbers -/

/-- The number that a literal denotes, in any form that the language has for numbers. -/
inductive WritesNumber : List Char → ℚ → Prop where
  | integer {w : List Char} : w ∈ Pattern.integer.language → WritesNumber w (digitsValue w)
  | real {w : List Char} {d : Decimal} :
      w ∈ Pattern.pointed.language + Pattern.fraction.language + Pattern.scaled.language →
      d.WrittenAs w → WritesNumber w d.value

theorem writesNumber_ofText {w : List Char} {d : Decimal}
    (h : w ∈ Pattern.pointed.language + Pattern.fraction.language + Pattern.scaled.language)
    (hd : Decimal.ofText w = d) : WritesNumber w d.value := by
  obtain ⟨d', hd'⟩ := Decimal.exists_writtenAs h
  obtain rfl : d' = d := (Decimal.ofText_of_writtenAs hd').symm.trans hd
  exact .real h hd'

namespace WritesNumber

variable {w : List Char} {v : ℚ}

theorem exists_pattern (h : WritesNumber w v) : ∃ q : Pattern, w ∈ q.language := by
  cases h with
  | integer h => exact ⟨.integer, h⟩
  | real h _ => exact Pattern.exists_of_real h

/-- A number starts with a digit or its point. -/
theorem exists_cons (h : WritesNumber w v) : ∃ c cs, w = c :: cs ∧ (c.isDigit ∨ c = '.') := by
  cases h with
  | integer h =>
    obtain ⟨hne, hdigits⟩ := mem_many.mp h
    obtain ⟨c, cs, rfl⟩ := List.exists_cons_of_ne_nil hne
    exact ⟨c, cs, rfl, .inl (hdigits c List.mem_cons_self)⟩
  | real h _ =>
    obtain ⟨c, cs, rfl, hc, -⟩ := Token.exists_cons_of_real h
    exact ⟨c, cs, rfl, hc.imp_right And.left⟩

/-- A number is read as it is where nothing continues it. -/
theorem cut (h : WritesNumber w v) {k : List Char} (hk : Lexeme.Neutral k) : Lexeme.Cut w k := by
  obtain ⟨q, hq⟩ := h.exists_pattern
  obtain ⟨c, cs, rfl, hc⟩ := h.exists_cons
  have hstart : ¬Lexeme.isBlank c ∧ c ≠ '/' ∧ c ≠ '"' := by
    rcases hc with hc | rfl
    · obtain ⟨hblank, hslash⟩ :=
        Lexeme.not_blank_of_isIdentifierRest (Lexeme.isIdentifierRest_of_isDigit hc)
      refine ⟨hblank, hslash, ?_⟩
      rintro rfl
      exact absurd hc (by decide)
    · decide
  have hsolid : Lexeme.Solid (c :: cs) :=
    Lexeme.solid_cons.mpr ⟨hstart.1, fun hslashes => hstart.2.1 hslashes.1⟩
  have hlong := Lexeme.length_le_extent hsolid hq (List.append_nil _)
  have hshort := Lexeme.extent_le c cs
  refine Lexeme.cut_cons hstart.1 hstart.2.1 ?_
  rw [Lexeme.extent_append hstart.2.2 hk]
  rw [List.length_cons] at hlong
  omega

end WritesNumber

/-! ## What is shown -/

namespace Binary64

/-- The tenths that a number is shown with. -/
def tenths (mantissa : Nat) (exponent : Int) : Nat :=
  roundDiv (10 * (ratio mantissa exponent).1) (ratio mantissa exponent).2

theorem renderTenths_finite (mantissa : Nat) (exponent : Int) :
    (finite mantissa exponent).renderTenths =
      toString (tenths mantissa exponent / 10) ++
      ("." ++ toString (tenths mantissa exponent % 10)) :=
  String.append_assoc

theorem ratio_spec (mantissa : Nat) (exponent : Int) :
    0 < (ratio mantissa exponent).2 ∧
      ((ratio mantissa exponent).1 : ℚ) / (ratio mantissa exponent).2 =
        mantissa * 2 ^ exponent := by
  have hspec := scaleRatio_spec mantissa Nat.one_pos exponent
  rwa [Nat.cast_one, div_one] at hspec

theorem le_tenths_iff {mantissa n : Nat} {exponent : Int} (heven : n % 2 = 0) :
    n ≤ tenths mantissa exponent ↔ (finite mantissa exponent).AtLeast (((n : ℚ) - 1 / 2) / 10) := by
  obtain ⟨hden, hratio⟩ := ratio_spec mantissa exponent
  have hten : ((10 : Nat) : ℚ) = 10 := Nat.cast_ofNat
  rw [tenths, le_roundDiv_iff hden heven, Nat.cast_mul, mul_div_assoc, hratio, hten, AtLeast,
    div_le_iff₀ (by norm_num), mul_comm]

/-- The first numbers that are shown as `2.0` and as `3.0`. -/
theorem ceiling_two : Ceiling (39 / 20) 8782019273372468 (-52) where
  even := by decide
  full := by decide
  range := by decide
  below := by norm_num
  above := by norm_num

theorem ceiling_three : Ceiling (59 / 20) 6642809450371482 (-51) where
  even := by decide
  full := by decide
  range := by decide
  below := by norm_num
  above := by norm_num

end Binary64

/-- The numbers that are accepted as versions. The ends are the middles between the numbers of
double precision around 1.95 and around 2.95. -/
def versionRange : Set ℚ := Set.Ico (17564038546744935 / 2 ^ 53) (13285618900742963 / 2 ^ 52)

namespace Parser

open Binary64

theorem supported_renderTenths_iff (value : Binary64) :
    Supported value.renderTenths ↔ value.AtLeast (39 / 20) ∧ ¬value.AtLeast (59 / 20) := by
  cases value with
  | infinite =>
    refine iff_of_false ?_ fun h => h.2 trivial
    rw [Supported, renderTenths]
    decide
  | finite mantissa exponent =>
    have htwo : 20 ≤ tenths mantissa exponent ↔ (finite mantissa exponent).AtLeast (39 / 20) := by
      rw [le_tenths_iff (by decide)]
      norm_num
    have hthree : 30 ≤ tenths mantissa exponent ↔ (finite mantissa exponent).AtLeast (59 / 20) := by
      rw [le_tenths_iff (by decide)]
      norm_num
    rw [renderTenths_finite, supported_iff, ← htwo, ← hthree]
    omega

/-- A literal is accepted for the number that it denotes. -/
theorem supported_ofDecimal_iff (d : Decimal) :
    Supported (Binary64.ofDecimal d).renderTenths ↔ d.value ∈ versionRange := by
  rw [supported_renderTenths_iff, ceiling_two.atLeast_ofDecimal_iff,
    ceiling_three.atLeast_ofDecimal_iff, not_le, versionRange, Set.mem_Ico]
  norm_num

/-- Only one whole number is a version. -/
theorem supported_integer_iff (n : Nat) : Supported s!"{n}.0" ↔ (n : ℚ) ∈ versionRange := by
  have htext : s!"{n}.0" = toString n ++ ("." ++ "0") := rfl
  rw [htext, supported_iff, versionRange, Set.mem_Ico]
  constructor
  · rintro rfl
    norm_num
  · rintro ⟨hlow, hhigh⟩
    have hlow : (1 : ℚ) < n := lt_of_lt_of_le (by norm_num) hlow
    have hhigh : (n : ℚ) < 3 := lt_trans hhigh (by norm_num)
    have hlow : 1 < n := by exact_mod_cast hlow
    have hhigh : n < 3 := by exact_mod_cast hhigh
    omega

/-- **The version that a number is shown as is accepted exactly in this range.** -/
theorem exists_versionText {w : List Char} {v : ℚ} {t : Token} (hw : WritesNumber w v)
    (ht : Token.ofText? w = some t) :
    ∃ shown, versionText t = some shown ∧ (Supported shown ↔ v ∈ versionRange) := by
  cases hw with
  | integer h =>
    rw [Token.ofText?_integer h] at ht
    split at ht
    · obtain rfl := Option.some.inj ht
      exact ⟨_, rfl, supported_integer_iff _⟩
    · cases ht
  | @real d h hd =>
    rw [Token.ofText?_real h, Decimal.ofText_of_writtenAs hd] at ht
    obtain rfl := Option.some.inj ht
    exact ⟨_, rfl, supported_ofDecimal_iff d⟩

/-! ## What is parsed -/

theorem version_eq {l : Lexeme Token} {ls : Lexemes} {shown : String}
    (h : versionText l.token = some shown) :
    version (l :: ls) =
      if ['2', '.'].isPrefixOf shown.toList then .ok (.one shown l ls)
      else .error (.version shown) := by
  cases hl : l.token with
  | real value =>
    rw [hl] at h
    obtain rfl := Option.some.inj h
    simp only [version, hl]
  | integer value =>
    rw [hl] at h
    obtain rfl := Option.some.inj h
    simp only [version, hl]
  | keyword | symbol | string | identifier =>
    rw [hl] at h
    cases h

section

variable {head number close : Lexeme Token} {body : Lexemes} {shown : String} {last : Nat}

theorem program_eq_bind (hhead : head.token = .keyword .openqasm) :
    program last (head :: number :: close :: body) =
      (version (number :: close :: body)).bind fun v => do
        let close ← symbol .semicolon v.rest
        return ⟨v.value, ← statements last close.rest⟩ := by
  rw [program, keyword, if_pos hhead]
  rfl

/-- Behind a version that is accepted, all depends on the statements. -/
theorem program_of_supported (hhead : head.token = .keyword .openqasm)
    (hversion : versionText number.token = some shown) (hclose : close.token = .symbol .semicolon)
    (hshown : Supported shown) :
    program last (head :: number :: close :: body) =
      (statements last body).map (Program.mk shown) := by
  rw [Supported, ← List.isPrefixOf_iff_prefix] at hshown
  rw [program_eq_bind hhead, version_eq hversion, if_pos hshown]
  show (symbol .semicolon (close :: body)).bind _ = _
  rw [symbol, if_pos hclose]
  show (statements last body).bind _ = _
  cases statements last body with
  | error e => rfl
  | ok sts => rfl

/-- Any other version is an error, whatever stands behind it. -/
theorem program_of_not_supported (hhead : head.token = .keyword .openqasm)
    (hversion : versionText number.token = some shown) (hshown : ¬Supported shown) :
    program last (head :: number :: close :: body) = .error (.version shown) := by
  rw [Supported, ← List.isPrefixOf_iff_prefix] at hshown
  rw [program_eq_bind hhead, version_eq hversion, if_neg hshown]
  rfl

end

end Parser

namespace Lexeme

/-- A source that starts with `OPENQASM`, the text `w` and a semicolon. Blanks and comments may
stand in front of each of them, and some do between the first two. -/
inductive VersionHeader (w : List Char) : List Char → Prop where
  | intro {before between behind rest : List Char} :
      Gap false before → Gap false between → between ≠ [] →
      Gap false behind →
      VersionHeader w (render [(before, "OPENQASM".toList), (between, w),
        (behind, ";".toList)] rest)

theorem Gap.neutral {g : List Char} (hg : Gap false g) (hne : g ≠ []) (k : List Char) :
    Neutral (g ++ k) := by
  have hneutral : Neutral (g ++ []) := hg.neutral_append trivial
  obtain ⟨c, cs, rfl⟩ := List.exists_cons_of_ne_nil hne
  exact hneutral

theorem VersionHeader.exists_scan {w source : List Char} {v : ℚ} (h : VersionHeader w source)
    (hw : WritesNumber w v) :
    ∃ before between behind more, (scan source).map word =
      (before, "OPENQASM".toList) :: (between, w) :: (behind, ";".toList) :: more := by
  cases h with
  | @intro before between behind rest hbefore hbetween hne hbehind =>
    have hkeyword : Cut "OPENQASM".toList (between ++ (w ++ (behind ++ (";".toList ++ rest)))) :=
      cut_identifier (by decide) (by decide) (hbetween.neutral hne _)
    have hnumber : Cut w (behind ++ (";".toList ++ rest)) :=
      hw.cut (hbehind.neutral_append (neutral_of_mark (by decide) rest))
    have hclose : Cut ";".toList rest := cut_mark (by decide) rest
    have hseparated :
        Separated [(before, "OPENQASM".toList), (between, w), (behind, ";".toList)] rest :=
      ⟨hbefore, hkeyword, hbetween, hnumber, hbehind, hclose, trivial⟩
    obtain ⟨found, offset, line, hscan, hwords, -⟩ := scanFrom_render hseparated 0 1
    refine ⟨before, between, behind, (scanFrom offset line rest).map word, ?_⟩
    rw [scan, hscan, List.map_append, hwords]
    rfl

/-- The lexemes of such a source. -/
theorem VersionHeader.exists_lexemes {w source : List Char} {v : ℚ} (h : VersionHeader w source)
    (hw : WritesNumber w v) {ls : Lexemes} (htokens : Parser.tokens (scan source) = .ok ls) :
    ∃ head number close body, ls = head :: number :: close :: body ∧
      head.token = .keyword .openqasm ∧
      number.text = w ∧ Token.ofText? w = some number.token ∧ close.token = .symbol .semicolon := by
  obtain ⟨before, between, behind, more, hscan⟩ := h.exists_scan hw
  obtain ⟨hwords, htoken⟩ := token_of_tokens htokens
  rw [hscan] at hwords
  obtain ⟨head, _, rfl, hhead, hmore⟩ := List.map_eq_cons_iff.mp hwords.symm
  obtain ⟨number, _, rfl, hnumber, hmore⟩ := List.map_eq_cons_iff.mp hmore
  obtain ⟨close, body, rfl, hclose, -⟩ := List.map_eq_cons_iff.mp hmore
  have hheadText : head.text = "OPENQASM".toList := (Prod.mk.inj hhead).2
  have hnumberText : number.text = w := (Prod.mk.inj hnumber).2
  have hcloseText : close.text = ";".toList := (Prod.mk.inj hclose).2
  simp only [List.forall_mem_cons] at htoken
  obtain ⟨hheadToken, hnumberToken, hcloseToken, -⟩ := htoken
  rw [hheadText] at hheadToken
  rw [hnumberText] at hnumberToken
  rw [hcloseText] at hcloseToken
  exact ⟨head, number, close, body, rfl, (Option.some.inj hheadToken).symm, hnumberText,
    hnumberToken, (Option.some.inj hcloseToken).symm⟩

end Lexeme

namespace Program

/-- **Which versions are accepted.** Of a source that starts with a version, the parser looks first
for lexical errors. If there are none, it goes on to the statements exactly if the number that is
denoted lies in `versionRange`, and otherwise reports the version. -/
theorem parse_version_range {source : String} {w : List Char} {v : ℚ}
    (hsource : Lexeme.VersionHeader w source.toList) (hw : WritesNumber w v) :
    (∀ e, Parser.tokens (Lexeme.scan source.toList) = .error e →
      ∃ line text, e = .invalidToken line text ∧ parse source = .error e) ∧
    ∀ ls, Parser.tokens (Lexeme.scan source.toList) = .ok ls →
      ∃ head number close body, ls = head :: number :: close :: body ∧ number.text = w ∧
        ((∃ p, Parser.version (number :: close :: body) = .ok p) ↔ v ∈ versionRange) ∧
        (v ∈ versionRange → ∃ shown,
          parse source =
            (Parser.statements (1 + lineEnds source.toList) body).map (Program.mk shown)) ∧
        (v ∉ versionRange → ∃ shown, parse source = .error (.version shown)) := by
  constructor
  · intro e he
    obtain ⟨line, text, rfl⟩ := Parser.eq_invalidToken_of_tokens he
    refine ⟨line, text, rfl, ?_⟩
    rw [parse, he]
    rfl
  · intro ls htokens
    obtain ⟨head, number, close, body, rfl, hhead, htext, htoken, hclose⟩ :=
      hsource.exists_lexemes hw htokens
    obtain ⟨shown, hversion, hrange⟩ := Parser.exists_versionText hw htoken
    have hparse : parse source =
        Parser.program (1 + lineEnds source.toList) (head :: number :: close :: body) := by
      rw [parse, htokens]
      rfl
    refine ⟨head, number, close, body, rfl, htext, ?_, ?_, ?_⟩
    · rw [← hrange, Parser.Supported, ← List.isPrefixOf_iff_prefix, Parser.version_eq hversion]
      split
      · rename_i hshown
        exact iff_of_true ⟨_, rfl⟩ hshown
      · rename_i hshown
        refine iff_of_false ?_ hshown
        rintro ⟨p, hp⟩
        cases hp
    · intro hv
      exact ⟨shown,
        hparse.trans (Parser.program_of_supported hhead hversion hclose (hrange.mpr hv))⟩
    · intro hv
      exact ⟨shown,
        hparse.trans (Parser.program_of_not_supported hhead hversion fun h => hv (hrange.mp h))⟩

/-- A version below two behind a comment that is accepted, and one below three that is not. -/
theorem parse_version_range_scaled :
    (49 / 25 ∈ versionRange ∧ ∃ shown body,
        parse "//\nOPENQASM 0.196E+1 ;" = (Parser.statements 2 body).map (Program.mk shown)) ∧
      (59 / 20 ∉ versionRange ∧ ∃ shown, parse "OPENQASM 295e-2;" = .error (.version shown)) := by
  constructor
  · have hmem : "0.196E+1".toList ∈ Pattern.pointed.language :=
      Pattern.mem_pointed.mpr ⟨['0'], ['1', '9', '6'], ['E', '+', '1'], rfl,
        mem_many.mpr ⟨by simp, by simp⟩, by simp, .inr (mem_exponent.mpr ⟨'E', ['+'], ['1'],
        rfl, by simp, by simp, mem_many.mpr ⟨by simp, by simp⟩⟩)⟩
    have hw := writesNumber_ofText (d := ⟨196, -2⟩) (.inl (.inl hmem)) (by decide)
    have hsource : Lexeme.VersionHeader "0.196E+1".toList "//\nOPENQASM 0.196E+1 ;".toList :=
      @Lexeme.VersionHeader.intro _ ['/', '/', '\n'] [' '] [' '] [] (.slashes (.lineEnd .nil))
        gap_blank (by simp) gap_blank
    have hv : Decimal.value ⟨196, -2⟩ = 49 / 25 := by norm_num [Decimal.value]
    rw [hv] at hw
    have hrange : (49 / 25 : ℚ) ∈ versionRange := by norm_num [versionRange]
    have hsome :
        (Parser.tokens (Lexeme.scan "//\nOPENQASM 0.196E+1 ;".toList)).toOption.isSome = true := by
      decide +kernel
    obtain ⟨ls, hls⟩ := Option.isSome_iff_exists.mp hsome
    obtain ⟨-, -, -, body, -, -, -, haccepted, -⟩ :=
      (parse_version_range hsource hw).2 ls (toOption_eq_some_iff.mp hls)
    obtain ⟨shown, hparse⟩ := haccepted hrange
    exact ⟨hrange, shown, body, hparse⟩
  · have hmem : "295e-2".toList ∈ Pattern.scaled.language :=
      Pattern.mem_scaled.mpr ⟨['2', '9', '5'], ['e', '-', '2'], rfl,
        mem_many.mpr ⟨by simp, by simp⟩, mem_exponent.mpr ⟨'e', ['-'], ['2'], rfl, by simp, by simp,
        mem_many.mpr ⟨by simp, by simp⟩⟩⟩
    have hw := writesNumber_ofText (d := ⟨295, -2⟩) (.inr hmem) (by decide)
    have hsource : Lexeme.VersionHeader "295e-2".toList "OPENQASM 295e-2;".toList :=
      @Lexeme.VersionHeader.intro _ [] [' '] [] [] .nil gap_blank (by simp) .nil
    have hv : Decimal.value ⟨295, -2⟩ = 59 / 20 := by norm_num [Decimal.value]
    rw [hv] at hw
    have hrange : (59 / 20 : ℚ) ∉ versionRange := by norm_num [versionRange]
    have hsome :
        (Parser.tokens (Lexeme.scan "OPENQASM 295e-2;".toList)).toOption.isSome = true := by
      decide +kernel
    obtain ⟨ls, hls⟩ := Option.isSome_iff_exists.mp hsome
    obtain ⟨-, -, -, -, -, -, -, -, hrejected⟩ :=
      (parse_version_range hsource hw).2 ls (toOption_eq_some_iff.mp hls)
    exact ⟨hrange, hrejected hrange⟩

/-- A version below two is taken for two, and one below three for three. -/
theorem parse_version_limits_moved :
    (WritesNumber "1.96".toList (49 / 25) ∧ (49 / 25 : ℚ) < 2 ∧
      parse "OPENQASM 1.96;" = .ok ⟨"2.0", []⟩) ∧
      WritesNumber "2.96".toList (74 / 25) ∧ (2 ≤ (74 / 25 : ℚ) ∧ (74 / 25 : ℚ) < 3) ∧
        parse "OPENQASM 2.96;" = .error (.version "3.0") := by
  have hmem (c : Char) (hc : c.isDigit) : [c, '.', '9', '6'] ∈ Pattern.pointed.language :=
    Pattern.mem_pointed.mpr ⟨[c], ['9', '6'], [], rfl,
      mem_many.mpr ⟨by simp, by simpa using hc⟩, by simp, .inl rfl⟩
  have hlow : Decimal.value ⟨196, -2⟩ = 49 / 25 := by norm_num [Decimal.value]
  have hhigh : Decimal.value ⟨296, -2⟩ = 74 / 25 := by norm_num [Decimal.value]
  refine ⟨⟨?_, by norm_num, by decide +kernel⟩, ?_, by norm_num, by decide +kernel⟩
  · rw [← hlow]
    exact writesNumber_ofText (.inl (.inl (hmem '1' (by decide)))) (by decide)
  · rw [← hhigh]
    exact writesNumber_ofText (.inl (.inl (hmem '2' (by decide)))) (by decide)

end Program

end QubitRouting
