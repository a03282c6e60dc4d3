import Mathlib.Computability.Language
import Mathlib.Data.Nat.Digits.Defs
import QubitRouting.Proofs.Circuit.Positions
import QubitRouting.Proofs.Circuit.Writing

/-!
# Token patterns

What tokens look like, each kind as a language of texts (`Pattern.language`), and which token a text
writes (`Token.WrittenAs`). The lexer knows neither: it computes how far a lexeme reaches from its
first character. Here it is shown that no pattern reaches further (`length_le_extent`) and that a
number, where patterns overlap most, is cut off where one of them ends (`take_extent_digit`).
-/

set_option autoImplicit false

open scoped Computability

namespace QubitRouting

/-! ## Languages of texts -/

/-- The texts of one character from a class. -/
def oneOf (p : Char → Bool) : Language Char := {w | ∃ c, p c ∧ w = [c]}

/-- The texts of one or more characters from a class. -/
def many (p : Char → Bool) : Language Char := oneOf p * (oneOf p)∗

/-- A single text. -/
def literal (text : String) : Language Char := {w | w = text.toList}

/-- A mark, an optional sign and digits. -/
def exponent : Language Char :=
  oneOf (fun c => c = 'e' || c = 'E') * (1 + oneOf fun c => c = '+' || c = '-') * many Char.isDigit

/-- The kinds of texts that the lexer tells apart. The first two are skipped. -/
inductive Pattern where
  | blanks
  | comment
  | keyword (word : Keyword)
  | symbol (symbol : Symbol)
  /-- A real with digits before the point. -/
  | pointed
  /-- A real that starts with its point. -/
  | fraction
  /-- A real without a point. -/
  | scaled
  | integer
  | string
  | identifier
deriving DecidableEq, Repr

namespace Pattern

def language : Pattern → Language Char
  | blanks => many fun c => c = ' ' || c = '\t' || c = '\r' || c = '\n'
  | comment => literal "//" * (oneOf (· != '\n'))∗
  | keyword k => literal k.text
  | symbol s => literal s.text
  | pointed => many Char.isDigit * literal "." * (oneOf Char.isDigit)∗ * (1 + exponent)
  | fraction => literal "." * many Char.isDigit * (1 + exponent)
  | scaled => many Char.isDigit * exponent
  | integer => many Char.isDigit
  | string => literal "\"" * (oneOf (· != '"'))∗ * literal "\""
  | identifier => oneOf (fun c => c.isAlpha || c = '_') * (oneOf fun c => c.isAlphanum || c = '_')∗

end Pattern

/-- What stands between lexemes: blanks, and comments with the ends of their lines. -/
def skips : Language Char := (Pattern.blanks.language + Pattern.comment.language * literal "\n")∗

/-! ## What texts write -/

/-- The value of decimal digits. -/
def digitsValue (ds : List Char) : Nat := Nat.ofDigits 10 (ds.reverse.map Decimal.digitValue)

/-- The exponent that a text writes, which is zero without one. -/
inductive ExponentText : List Char → Int → Prop where
  | none : ExponentText [] 0
  | plain {mark : Char} {ds : List Char} :
      mark ∈ ['e', 'E'] → ds ∈ many Char.isDigit → ExponentText (mark :: ds) (digitsValue ds)
  | plus {mark : Char} {ds : List Char} :
      mark ∈ ['e', 'E'] → ds ∈ many Char.isDigit → ExponentText (mark :: '+' :: ds) (digitsValue ds)
  | minus {mark : Char} {ds : List Char} :
      mark ∈ ['e', 'E'] → ds ∈ many Char.isDigit →
        ExponentText (mark :: '-' :: ds) (-digitsValue ds)

/-- The decimal number that a real literal writes: the digits before and behind the point are one
number, scaled by the exponent and by the digits behind the point. -/
inductive Decimal.WrittenAs : Decimal → List Char → Prop where
  | pointed {whole places e : List Char} {n : Int} :
      whole ∈ (oneOf Char.isDigit)∗ → places ∈ (oneOf Char.isDigit)∗ → ExponentText e n →
      Decimal.WrittenAs ⟨digitsValue (whole ++ places),
        n - places.length⟩ (whole ++ '.' :: (places ++ e))
  | scaled {whole e : List Char} {n : Int} :
      whole ∈ (oneOf Char.isDigit)∗ → ExponentText e n →
        Decimal.WrittenAs ⟨digitsValue whole, n⟩ (whole ++ e)

/-- The text that a token has. A keyword is no identifier, and integers have 64 bits. -/
def Token.WrittenAs : Token → List Char → Prop
  | keyword k, w => w ∈ (Pattern.keyword k).language
  | symbol s, w => w ∈ (Pattern.symbol s).language
  | real value, w =>
    w ∈ Pattern.pointed.language + Pattern.fraction.language + Pattern.scaled.language ∧
      ∃ d : Decimal, d.WrittenAs w ∧ value = Binary64.ofDecimal d
  | integer value, w =>
    w ∈ Pattern.integer.language ∧ value = digitsValue w ∧ value < Nat.pow 2 64
  | string content, w => w ∈ Pattern.string.language ∧ w = '"' :: (content.toList ++ ['"'])
  | identifier name, w =>
    w ∈ Pattern.identifier.language ∧ w = name.toList ∧ ∀ k, w ∉ (Pattern.keyword k).language

/-! ## Texts of each pattern -/

section

variable {p : Char → Bool} {w : List Char}

theorem mem_oneOf_star : w ∈ (oneOf p)∗ ↔ ∀ c ∈ w, p c := by
  constructor
  · intro h c hc
    obtain ⟨parts, rfl, hparts⟩ := Language.mem_kstar.mp h
    obtain ⟨part, hpart, hc⟩ := List.mem_flatten.mp hc
    obtain ⟨d, hd, rfl⟩ := hparts part hpart
    obtain rfl := List.mem_singleton.mp hc
    exact hd
  · intro h
    refine Language.mem_kstar.mpr ⟨w.map fun c => [c], ?_, ?_⟩
    · induction w with
      | nil => rfl
      | cons c w ih =>
        rw [List.map_cons, List.flatten_cons, ← ih fun d hd => h d (List.mem_cons_of_mem c hd)]
        rfl
    · intro part hpart
      obtain ⟨c, hc, rfl⟩ := List.mem_map.mp hpart
      exact ⟨c, h c hc, rfl⟩

theorem mem_oneOf_mul {l : Language Char} :
    w ∈ oneOf p * l ↔ ∃ c cs, w = c :: cs ∧ p c ∧ cs ∈ l := by
  constructor
  · intro h
    obtain ⟨_, ⟨c, hc, rfl⟩, cs, hcs, rfl⟩ := Language.mem_mul.mp h
    exact ⟨c, cs, rfl, hc, hcs⟩
  · rintro ⟨c, cs, rfl, hc, hcs⟩
    exact Language.mem_mul.mpr ⟨[c], ⟨c, hc, rfl⟩, cs, hcs, rfl⟩

theorem mem_many : w ∈ many p ↔ w ≠ [] ∧ ∀ c ∈ w, p c := by
  rw [many, mem_oneOf_mul]
  constructor
  · rintro ⟨c, cs, rfl, hc, hcs⟩
    exact ⟨List.cons_ne_nil c cs, List.forall_mem_cons.mpr ⟨hc, mem_oneOf_star.mp hcs⟩⟩
  · rintro ⟨hne, hw⟩
    obtain ⟨c, cs, rfl⟩ := List.exists_cons_of_ne_nil hne
    obtain ⟨hc, hcs⟩ := List.forall_mem_cons.mp hw
    exact ⟨c, cs, rfl, hc, mem_oneOf_star.mpr hcs⟩

theorem mem_literal_mul {text : String} {l : Language Char} :
    w ∈ literal text * l ↔ ∃ rest ∈ l, w = text.toList ++ rest := by
  constructor
  · intro h
    obtain ⟨_, rfl, rest, hrest, rfl⟩ := Language.mem_mul.mp h
    exact ⟨rest, hrest, rfl⟩
  · rintro ⟨rest, hrest, rfl⟩
    exact Language.mem_mul.mpr ⟨_, rfl, rest, hrest, rfl⟩

theorem mem_exponent : w ∈ exponent ↔ ∃ mark sign ds, w = mark :: (sign ++ ds) ∧
    (mark = 'e' ∨ mark = 'E') ∧ (sign = [] ∨ sign = ['+'] ∨ sign = ['-']) ∧
      ds ∈ many Char.isDigit := by
  rw [exponent, mul_assoc, mem_oneOf_mul]
  constructor
  · rintro ⟨mark, cs, rfl, hmark, hcs⟩
    obtain ⟨sign, hsign, ds, hds, rfl⟩ := Language.mem_mul.mp hcs
    refine ⟨mark, sign, ds, rfl, by simpa using hmark, ?_, hds⟩
    rcases (Language.mem_add _ _ _).mp hsign with hsign | ⟨c, hc, rfl⟩
    · exact .inl hsign
    · refine .inr ?_
      simpa using hc
  · rintro ⟨mark, sign, ds, rfl, hmark, hsign, hds⟩
    refine ⟨mark, sign ++ ds, rfl, by simpa using hmark, Language.append_mem_mul ?_ hds⟩
    rcases hsign with rfl | rfl | rfl
    · exact .inl rfl
    · exact .inr ⟨'+', rfl, rfl⟩
    · exact .inr ⟨'-', rfl, rfl⟩

namespace Pattern

theorem mem_identifier : w ∈ identifier.language ↔
    ∃ c cs, w = c :: cs ∧ Token.isIdentifierStart c ∧ ∀ d ∈ cs, Token.isIdentifierRest d := by
  rw [language, mem_oneOf_mul]
  simp only [mem_oneOf_star]
  rfl

theorem mem_string : w ∈ string.language ↔ ∃ body, w = '"' :: (body ++ ['"']) ∧ '"' ∉ body := by
  have hbody (body : List Char) : body ∈ (oneOf (· != '"'))∗ ↔ '"' ∉ body := by
    rw [mem_oneOf_star]
    simp only [bne_iff_ne]
    exact ⟨fun h hmem => h _ hmem rfl, fun h c hc hquote => h (hquote ▸ hc)⟩
  rw [language, mul_assoc, mem_literal_mul]
  constructor
  · rintro ⟨rest, hrest, rfl⟩
    obtain ⟨body, hmem, _, rfl, rfl⟩ := Language.mem_mul.mp hrest
    exact ⟨body, rfl, (hbody body).mp hmem⟩
  · rintro ⟨body, rfl, hmem⟩
    exact ⟨body ++ ['"'], Language.append_mem_mul ((hbody body).mpr hmem) rfl, rfl⟩

theorem mem_pointed : w ∈ pointed.language ↔ ∃ whole places e, w = whole ++ '.' :: (places ++ e) ∧
    whole ∈ many Char.isDigit ∧ (∀ c ∈ places, c.isDigit) ∧ e ∈ 1 + exponent := by
  rw [language, mul_assoc, mul_assoc]
  constructor
  · intro h
    obtain ⟨whole, hwhole, tail, htail, rfl⟩ := Language.mem_mul.mp h
    obtain ⟨rest, hrest, rfl⟩ := mem_literal_mul.mp htail
    obtain ⟨places, hplaces, e, he, rfl⟩ := Language.mem_mul.mp hrest
    exact ⟨whole, places, e, rfl, hwhole, mem_oneOf_star.mp hplaces, he⟩
  · rintro ⟨whole, places, e, rfl, hwhole, hplaces, he⟩
    refine Language.append_mem_mul hwhole (mem_literal_mul.mpr ⟨places ++ e, ?_, rfl⟩)
    exact Language.append_mem_mul (mem_oneOf_star.mpr hplaces) he

theorem mem_fraction : w ∈ fraction.language ↔ ∃ places e, w = '.' :: (places ++ e) ∧
    places ∈ many Char.isDigit ∧ e ∈ 1 + exponent := by
  rw [language, mul_assoc, mem_literal_mul]
  constructor
  · rintro ⟨rest, hrest, rfl⟩
    obtain ⟨places, hplaces, e, he, rfl⟩ := Language.mem_mul.mp hrest
    exact ⟨places, e, rfl, hplaces, he⟩
  · rintro ⟨places, e, rfl, hplaces, he⟩
    exact ⟨places ++ e, Language.append_mem_mul hplaces he, rfl⟩

theorem mem_scaled : w ∈ scaled.language ↔ ∃ whole e, w = whole ++ e ∧
    whole ∈ many Char.isDigit ∧ e ∈ exponent := by
  rw [language, Language.mem_mul]
  constructor
  · rintro ⟨whole, hwhole, e, he, rfl⟩
    exact ⟨whole, e, rfl, hwhole, he⟩
  · rintro ⟨whole, e, rfl, hwhole, he⟩
    exact ⟨whole, hwhole, e, he, rfl⟩

end Pattern

end

namespace Lexeme

/-! ## How far patterns reach -/

section

variable {p : Char → Bool} {c : Char} {ds e rest k : List Char}

theorem exists_span (p : Char → Bool) (cs : List Char) :
    ∃ ds rest, cs = ds ++ rest ∧ (∀ c ∈ ds, p c) ∧ ∀ c ∈ rest.head?, ¬p c := by
  refine ⟨cs.takeWhile p, cs.dropWhile p, List.takeWhile_append_dropWhile.symm,
    fun c hc => List.mem_takeWhile_imp hc, fun c hc hp => ?_⟩
  have := List.head?_dropWhile_not p cs
  rw [Option.mem_def.mp hc] at this
  simp [hp] at this

theorem takeWhile_append_eq (h : ∀ c ∈ ds, p c) (hk : ∀ c ∈ k.head?, ¬p c) :
    (ds ++ k).takeWhile p = ds := by
  rw [takeWhile_append_stop hk, List.takeWhile_eq_self_iff.mpr h]

theorem length_le_takeWhile (h : ∀ c ∈ ds, p c) : ds.length ≤ ((ds ++ k).takeWhile p).length := by
  rw [List.takeWhile_append_of_pos h, List.length_append]
  exact Nat.le_add_right _ _

/-! ### Exponents -/

theorem exponentExtent_signed {mark : Char} {sign : List Char} (hmark : mark = 'e' ∨ mark = 'E')
    (hsign : sign = ['+'] ∨ sign = ['-']) (hd : c.isDigit) :
    exponentExtent (mark :: (sign ++ c :: k)) = 2 + ((c :: k).takeWhile Char.isDigit).length := by
  rcases hmark with rfl | rfl <;> rcases hsign with rfl | rfl <;>
    simp [exponentExtent, List.takeWhile_cons_of_pos hd]

theorem exponentExtent_unsigned {mark : Char} (hmark : mark = 'e' ∨ mark = 'E') (hd : c.isDigit) :
    exponentExtent (mark :: c :: k) = 1 + ((c :: k).takeWhile Char.isDigit).length := by
  have hplus : c ≠ '+' := by
    rintro rfl
    exact absurd hd (by decide)
  have hminus : c ≠ '-' := by
    rintro rfl
    exact absurd hd (by decide)
  rcases hmark with rfl | rfl <;> simp [exponentExtent, hplus, hminus,
    List.takeWhile_cons_of_pos hd]

theorem length_le_exponentExtent (he : e ∈ exponent) (k : List Char) :
    e.length ≤ exponentExtent (e ++ k) := by
  obtain ⟨mark, sign, ds, rfl, hmark, hsign, hds⟩ := mem_exponent.mp he
  obtain ⟨hne, hdigits⟩ := mem_many.mp hds
  have hle : ds.length ≤ ((ds ++ k).takeWhile Char.isDigit).length := length_le_takeWhile hdigits
  obtain ⟨d, ds, rfl⟩ := List.exists_cons_of_ne_nil hne
  have hd : d.isDigit := hdigits d List.mem_cons_self
  rw [List.cons_append] at hle
  rcases hsign with rfl | hsign
  · rw [List.nil_append, List.cons_append, List.cons_append, exponentExtent_unsigned hmark hd,
      List.length_cons]
    omega
  · have hone : sign.length = 1 := by
      rcases hsign with rfl | rfl <;> rfl
    rw [List.cons_append, List.append_assoc, List.cons_append, exponentExtent_signed hmark hsign hd,
      List.length_cons, List.length_append, hone]
    omega

theorem take_exponentExtent (cs : List Char) : cs.take (exponentExtent cs) ∈ 1 + exponent := by
  fun_cases exponentExtent cs with
  | case1 mark cs hmark sign digits hsign n hn => exact .inl rfl
  | case3 mark cs hmark => exact .inl rfl
  | case4 => exact .inl rfl
  | case2 mark cs hmark sign digits hsign n hn =>
    obtain ⟨ds, rest, rfl, hds, hrest⟩ := exists_span Char.isDigit digits
    have hn' : n = ds.length := congrArg List.length (takeWhile_append_eq hds hrest)
    have hmany : ds ∈ many Char.isDigit := mem_many.mpr ⟨by rintro rfl; exact hn hn', hds⟩
    have hmark' : mark = 'e' ∨ mark = 'E' := by simpa using hmark
    refine .inr (mem_exponent.mpr ?_)
    have htake : (ds ++ rest).take n = ds := by rw [hn', List.take_left]
    rw [Nat.add_right_comm, Nat.add_comm 1 n, Nat.add_right_comm, List.take_succ_cons]
    split at hsign
    · obtain ⟨rfl, rfl⟩ := Prod.mk.inj hsign
      exact ⟨mark, ['+'], ds, by rw [List.take_succ_cons, htake]; rfl, hmark',
        .inr (.inl rfl), hmany⟩
    · obtain ⟨rfl, rfl⟩ := Prod.mk.inj hsign
      exact ⟨mark, ['-'], ds, by rw [List.take_succ_cons, htake]; rfl, hmark',
        .inr (.inr rfl), hmany⟩
    · obtain ⟨rfl, rfl⟩ := Prod.mk.inj hsign
      exact ⟨mark, [], ds, by rw [Nat.add_zero, htake]; rfl, hmark', .inl rfl, hmany⟩

/-! ### Numbers -/

theorem digitsExtent_eq (hds : ∀ c ∈ ds, c.isDigit) (hrest : ∀ c ∈ rest.head?, ¬c.isDigit) :
    digitsExtent (ds ++ rest) = ds.length + exponentExtent rest := by
  rw [digitsExtent, takeWhile_append_eq hds hrest, List.drop_left]

theorem not_isDigit_of_mem_exponent (he : e ∈ exponent) :
    ∀ c ∈ (e ++ k).head?, ¬c.isDigit ∧ c ≠ '.' := by
  obtain ⟨mark, sign, ds, rfl, hmark, -, -⟩ := mem_exponent.mp he
  intro c hc
  obtain rfl : mark = c := Option.some.inj hc
  rcases hmark with rfl | rfl <;> decide

theorem length_le_digitsExtent (hds : ∀ c ∈ ds, c.isDigit) (he : e ∈ 1 + exponent) (k : List Char) :
    ds.length + e.length ≤ digitsExtent (ds ++ (e ++ k)) := by
  rcases (Language.mem_add _ _ _).mp he with he | he
  · obtain rfl : e = [] := he
    have hle : ds.length ≤ ((ds ++ k).takeWhile Char.isDigit).length := length_le_takeWhile hds
    exact Nat.le_trans hle (Nat.le_add_right _ _)
  · rw [digitsExtent_eq hds fun c hc => (not_isDigit_of_mem_exponent he c hc).1]
    exact Nat.add_le_add_left (length_le_exponentExtent he k) _

theorem take_digitsExtent (cs : List Char) :
    ∃ e ∈ 1 + exponent, cs.take (digitsExtent cs) = cs.takeWhile Char.isDigit ++ e := by
  obtain ⟨ds, rest, rfl, hds, hrest⟩ := exists_span Char.isDigit cs
  refine ⟨rest.take (exponentExtent rest), take_exponentExtent rest, ?_⟩
  rw [digitsExtent_eq hds hrest, takeWhile_append_eq hds hrest, List.take_length_add_append]

theorem extent_pointed (hc : c.isDigit) (hds : ∀ c ∈ ds, c.isDigit) (rest : List Char) :
    extent c (ds ++ '.' :: rest) = ds.length + 1 + digitsExtent rest := by
  unfold extent
  rw [if_neg (not_isIdentifierStart_of_isDigit hc), if_pos hc, takeWhile_append_eq hds (by simp)]
  dsimp only
  rw [List.drop_left]
  rfl

theorem extent_unpointed (hc : c.isDigit) (hds : ∀ c ∈ ds, c.isDigit)
    (hrest : ∀ c ∈ rest.head?, ¬c.isDigit ∧ c ≠ '.') :
    extent c (ds ++ rest) = ds.length + exponentExtent rest := by
  unfold extent
  rw [if_neg (not_isIdentifierStart_of_isDigit hc), if_pos hc,
    takeWhile_append_eq hds fun d hd => (hrest d hd).1]
  dsimp only
  rw [List.drop_left]
  cases rest with
  | nil => rfl
  | cons d rest => simp [(hrest d rfl).2]

theorem take_extent_digit (hc : c.isDigit) (cs : List Char) :
    c :: cs.take (extent c cs) ∈
      Pattern.pointed.language + Pattern.scaled.language + Pattern.integer.language := by
  obtain ⟨ds, rest, rfl, hds, hrest⟩ := exists_span Char.isDigit cs
  have hwhole : c :: ds ∈ many Char.isDigit :=
    mem_many.mpr ⟨List.cons_ne_nil c ds, List.forall_mem_cons.mpr ⟨hc, hds⟩⟩
  by_cases hpoint : rest.head? = some '.'
  · obtain ⟨rest, rfl⟩ := List.head?_eq_some_iff.mp hpoint
    obtain ⟨e, he, htake⟩ := take_digitsExtent rest
    refine .inl (.inl (Pattern.mem_pointed.mpr ⟨c :: ds, rest.takeWhile Char.isDigit, e, ?_, hwhole,
      fun d hd => List.mem_takeWhile_imp hd, he⟩))
    rw [extent_pointed hc hds, Nat.add_assoc, List.take_length_add_append, Nat.add_comm 1,
      List.take_succ_cons, htake]
    rfl
  · rw [extent_unpointed hc hds fun d hd => ⟨hrest d hd, fun h => hpoint (h ▸ hd)⟩,
      List.take_length_add_append, ← List.cons_append]
    rcases (Language.mem_add _ _ _).mp (take_exponentExtent rest) with he | he
    · obtain he : rest.take (exponentExtent rest) = [] := he
      rw [he, List.append_nil]
      exact .inr hwhole
    · exact .inl (.inr (Language.append_mem_mul hwhole he))

theorem length_le_extent_digits (hc : c.isDigit) (hds : ∀ c ∈ ds, c.isDigit) (k : List Char) :
    ds.length ≤ extent c (ds ++ k) := by
  have hle : ds.length ≤ ((ds ++ k).takeWhile Char.isDigit).length := length_le_takeWhile hds
  obtain ⟨ds', rest, hsplit, hds', hrest⟩ := exists_span Char.isDigit (ds ++ k)
  rw [hsplit, takeWhile_append_eq hds' hrest] at hle
  rw [hsplit]
  by_cases hpoint : rest.head? = some '.'
  · obtain ⟨rest, rfl⟩ := List.head?_eq_some_iff.mp hpoint
    rw [extent_pointed hc hds']
    omega
  · rw [extent_unpointed hc hds' fun d hd => ⟨hrest d hd, fun h => hpoint (h ▸ hd)⟩]
    omega

theorem extent_point (hc : c.isDigit) (k : List Char) :
    extent '.' (c :: k) = digitsExtent (c :: k) := by
  simp [extent, hc, show Token.isIdentifierStart '.' = false from rfl,
    show Char.isDigit '.' = false from rfl]

/-! ### All patterns -/

theorem mem_identifier_of_keyword (k : Keyword) : k.text.toList ∈ Pattern.identifier.language := by
  refine Pattern.mem_identifier.mpr ?_
  cases k <;> exact ⟨_, _, rfl, by decide, List.all_eq_true.mp (by decide)⟩

theorem length_le_extent_identifier {u v : List Char} (hu : u ∈ Pattern.identifier.language)
    (huv : u ++ v = c :: rest) : u.length ≤ extent c rest + 1 := by
  obtain ⟨d, ds, rfl, hd, hds⟩ := Pattern.mem_identifier.mp hu
  rw [List.cons_append] at huv
  obtain ⟨rfl, rfl⟩ := List.cons.inj huv
  have hle : ds.length ≤ ((ds ++ v).takeWhile Token.isIdentifierRest).length :=
    length_le_takeWhile hds
  unfold extent
  rw [if_pos hd, List.length_cons]
  omega

/-- No pattern reaches further than the lexer. -/
theorem length_le_extent {q : Pattern} {u v : List Char} (hsolid : Solid (c :: rest))
    (hu : u ∈ q.language) (huv : u ++ v = c :: rest) : u.length ≤ extent c rest + 1 := by
  obtain ⟨hblank, hslashes⟩ := solid_cons.mp hsolid
  cases q with
  | blanks =>
    obtain ⟨hne, hblanks⟩ := mem_many.mp hu
    obtain ⟨d, ds, rfl⟩ := List.exists_cons_of_ne_nil hne
    obtain ⟨rfl, -⟩ := List.cons.inj huv
    exact absurd (hblanks d List.mem_cons_self) hblank
  | comment =>
    obtain ⟨body, -, rfl⟩ := mem_literal_mul.mp hu
    obtain ⟨rfl, rfl⟩ := List.cons.inj huv
    exact absurd ⟨rfl, rfl⟩ hslashes
  | keyword k =>
    obtain rfl : u = k.text.toList := hu
    exact length_le_extent_identifier (mem_identifier_of_keyword k) huv
  | identifier => exact length_le_extent_identifier hu huv
  | symbol s =>
    obtain rfl : u = s.text.toList := hu
    cases s with
    | arrow =>
      obtain ⟨rfl, rfl⟩ := List.cons.inj huv
      exact Nat.le_refl 2
    | equals =>
      obtain ⟨rfl, rfl⟩ := List.cons.inj huv
      exact Nat.le_refl 2
    | _ => exact Nat.le_add_left 1 _
  | integer =>
    obtain ⟨hne, hdigits⟩ := mem_many.mp hu
    obtain ⟨d, ds, rfl⟩ := List.exists_cons_of_ne_nil hne
    rw [List.cons_append] at huv
    obtain ⟨rfl, rfl⟩ := List.cons.inj huv
    obtain ⟨hd, hds⟩ := List.forall_mem_cons.mp hdigits
    exact Nat.succ_le_succ (length_le_extent_digits hd hds v)
  | pointed =>
    obtain ⟨whole, places, e, rfl, hwhole, hplaces, he⟩ := Pattern.mem_pointed.mp hu
    obtain ⟨hne, hdigits⟩ := mem_many.mp hwhole
    obtain ⟨d, ds, rfl⟩ := List.exists_cons_of_ne_nil hne
    obtain ⟨hd, hds⟩ := List.forall_mem_cons.mp hdigits
    rw [List.append_assoc, List.cons_append, List.cons_append, List.append_assoc] at huv
    obtain ⟨rfl, rfl⟩ := List.cons.inj huv
    have hle := length_le_digitsExtent hplaces he v
    rw [extent_pointed hd hds]
    simp only [List.length_cons, List.length_append]
    omega
  | fraction =>
    obtain ⟨places, e, rfl, hplaces, he⟩ := Pattern.mem_fraction.mp hu
    obtain ⟨hne, hdigits⟩ := mem_many.mp hplaces
    rw [List.cons_append, List.append_assoc] at huv
    obtain ⟨rfl, rfl⟩ := List.cons.inj huv
    have hle := length_le_digitsExtent hdigits he v
    obtain ⟨d, ds, rfl⟩ := List.exists_cons_of_ne_nil hne
    rw [List.length_cons, List.length_append, List.cons_append,
      extent_point (hdigits d List.mem_cons_self)]
    exact Nat.succ_le_succ hle
  | scaled =>
    obtain ⟨whole, e, rfl, hwhole, he⟩ := Pattern.mem_scaled.mp hu
    obtain ⟨hne, hdigits⟩ := mem_many.mp hwhole
    obtain ⟨d, ds, rfl⟩ := List.exists_cons_of_ne_nil hne
    obtain ⟨hd, hds⟩ := List.forall_mem_cons.mp hdigits
    rw [List.append_assoc, List.cons_append] at huv
    obtain ⟨rfl, rfl⟩ := List.cons.inj huv
    have hle := length_le_exponentExtent he v
    rw [extent_unpointed hd hds (not_isDigit_of_mem_exponent he), List.length_append,
      List.length_cons]
    omega
  | string =>
    obtain ⟨body, rfl, hbody⟩ := Pattern.mem_string.mp hu
    rw [List.cons_append, List.append_assoc, List.singleton_append] at huv
    obtain ⟨rfl, rfl⟩ := List.cons.inj huv
    rw [extent_string hbody, List.length_cons, List.length_append]
    exact Nat.le_refl _

end

end Lexeme

end QubitRouting
