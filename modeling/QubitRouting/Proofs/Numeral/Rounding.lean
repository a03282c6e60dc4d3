import Mathlib.Algebra.Order.Field.Power
import Mathlib.Tactic.FieldSimp
import Mathlib.Tactic.Linarith
import Mathlib.Tactic.NormNum
import Mathlib.Tactic.Positivity
import Mathlib.Tactic.Ring
import QubitRouting.Numeral.Binary64

/-!
# Which numbers are rounded where

Decimal literals are rounded to double precision (`Numeral/Binary64.lean`). The functions that do
this compute with ratios of whole numbers; here they are read as functions on the rational numbers.
What a comparison needs to know of a rounded number is stated as a bound on the number before the
rounding: a number is rounded to `y` or more exactly if it is not below the middle between the two
numbers around `y` (`Binary64.Ceiling.atLeast_ofDecimal_iff`). That middle itself goes up, as long
as the upper one of the two is even.
-/

set_option autoImplicit false

namespace QubitRouting

/-! ## Rounding to whole numbers -/

section

variable {num den n : Nat}

/-- A ratio between two whole numbers goes to the closer one, and one in the middle to the even
one. -/
theorem roundDiv_cases (num : Nat) (hden : 0 < den) :
    ∃ rest : ℚ, (num : ℚ) / den = (num / den : Nat) + rest ∧ 0 ≤ rest ∧ rest < 1 ∧
      (rest < 1 / 2 ∧ roundDiv num den = num / den ∨
        1 / 2 < rest ∧ roundDiv num den = num / den + 1 ∨
          rest = 1 / 2 ∧ roundDiv num den = num / den + num / den % 2) := by
  have hpos : (0 : ℚ) < den := by exact_mod_cast hden
  have hsplit : (num : ℚ) = den * (num / den : Nat) + (num % den : Nat) := by
    exact_mod_cast (Nat.div_add_mod num den).symm
  have hmod : ((num % den : Nat) : ℚ) < den := by exact_mod_cast Nat.mod_lt num hden
  refine ⟨(num % den : Nat) / den, ?_, by positivity, (div_lt_one hpos).mpr hmod, ?_⟩
  · nth_rewrite 1 [hsplit]
    field_simp
  unfold roundDiv
  dsimp only
  split
  · rename_i hless
    have hless : (2 : ℚ) * (num % den : Nat) < den := by exact_mod_cast hless
    refine .inl ⟨?_, rfl⟩
    rw [div_lt_div_iff₀ hpos two_pos]
    linarith
  · split
    · rename_i hmore
      have hmore : (den : ℚ) < 2 * (num % den : Nat) := by exact_mod_cast hmore
      refine .inr (.inl ⟨?_, rfl⟩)
      rw [div_lt_div_iff₀ two_pos hpos]
      linarith
    · have hhalf : 2 * (num % den) = den := by omega
      have hhalf : (2 : ℚ) * (num % den : Nat) = den := by exact_mod_cast hhalf
      refine .inr (.inr ⟨?_, rfl⟩)
      rw [div_eq_div_iff hpos.ne' two_ne_zero]
      linarith

/-- Rounding does not go below a whole number. -/
theorem le_roundDiv (hden : 0 < den) (h : (n : ℚ) ≤ (num : ℚ) / den) : n ≤ roundDiv num den := by
  obtain ⟨rest, hratio, -, hrest, hcases⟩ := roundDiv_cases num hden
  have hlt : (n : ℚ) < (num / den : Nat) + 1 := by linarith
  have hle : n ≤ num / den := Nat.lt_succ_iff.mp (by exact_mod_cast hlt)
  rcases hcases with ⟨-, hround⟩ | ⟨-, hround⟩ | ⟨-, hround⟩ <;> omega

/-- Nor above one. -/
theorem roundDiv_le (hden : 0 < den) (h : (num : ℚ) / den ≤ n) : roundDiv num den ≤ n := by
  obtain ⟨rest, hratio, hrest, -, hcases⟩ := roundDiv_cases num hden
  have hle : num / den ≤ n := by
    have : ((num / den : Nat) : ℚ) ≤ n := by linarith
    exact_mod_cast this
  rcases hcases with ⟨-, hround⟩ | ⟨hup, hround⟩ | ⟨hup, hround⟩
  · omega
  all_goals
    have hlt : ((num / den : Nat) : ℚ) < n := by linarith
    have hlt : num / den < n := by exact_mod_cast hlt
    omega

/-- **What is rounded to an even number or more** is what is at most a half below it. -/
theorem le_roundDiv_iff (hden : 0 < den) (heven : n % 2 = 0) :
    n ≤ roundDiv num den ↔ (n : ℚ) - 1 / 2 ≤ (num : ℚ) / den := by
  obtain ⟨rest, hratio, hrest, hrest', hcases⟩ := roundDiv_cases num hden
  rw [hratio]
  rcases Nat.lt_trichotomy n (num / den + 1) with hn | hn | hn
  · have hle : (n : ℚ) ≤ (num / den : Nat) := by exact_mod_cast Nat.lt_succ_iff.mp hn
    refine iff_of_true ?_ (by linarith)
    rcases hcases with ⟨-, hround⟩ | ⟨-, hround⟩ | ⟨-, hround⟩ <;> omega
  · -- the middle goes up, since the number below is odd
    have heq : (n : ℚ) = (num / den : Nat) + 1 := by exact_mod_cast hn
    rcases hcases with ⟨hdown, hround⟩ | ⟨hup, hround⟩ | ⟨hup, hround⟩
    · exact iff_of_false (by omega) (by linarith)
    · exact iff_of_true (by omega) (by linarith)
    · exact iff_of_true (by omega) (by linarith)
  · have hle : ((num / den : Nat) : ℚ) + 2 ≤ n := by exact_mod_cast hn
    refine iff_of_false ?_ (by linarith)
    rcases hcases with ⟨-, hround⟩ | ⟨-, hround⟩ | ⟨-, hround⟩ <;> omega

end

/-! ## Ratios and powers of two -/

section

variable {num den : Nat}

theorem scaleRatio_spec (num : Nat) (hden : 0 < den) (shift : Int) :
    0 < (scaleRatio num den shift).2 ∧
      ((scaleRatio num den shift).1 : ℚ) / (scaleRatio num den shift).2 =
        (num : ℚ) / den * 2 ^ shift := by
  have hpow (k : Nat) : ((Nat.pow 2 k : Nat) : ℚ) = 2 ^ k := Nat.cast_pow 2 k
  cases shift with
  | ofNat k =>
    refine ⟨hden, ?_⟩
    simp only [scaleRatio, Nat.cast_mul, hpow, Int.ofNat_eq_natCast, zpow_natCast]
    ring
  | negSucc k =>
    refine ⟨Nat.mul_pos hden (Nat.pow_pos two_pos), ?_⟩
    simp only [scaleRatio, Nat.cast_mul, hpow, zpow_negSucc]
    rw [div_mul_eq_div_div, div_eq_mul_inv _ ((2 : ℚ) ^ (k + 1))]

theorem log2_bounds {n : Nat} (hn : 0 < n) :
    (2 : ℚ) ^ (n.log2 : Int) ≤ n ∧ (n : ℚ) < 2 ^ ((n.log2 : Int) + 1) := by
  have hlow := Nat.log2_self_le hn.ne'
  have hhigh := Nat.lt_log2_self (n := n)
  rw [← Nat.cast_succ, zpow_natCast, zpow_natCast]
  exact ⟨by exact_mod_cast hlow, by exact_mod_cast hhigh⟩

/-- A ratio lies between this power of two and the next one. -/
theorem floorLog2_bounds (hnum : 0 < num) (hden : 0 < den) :
    (2 : ℚ) ^ floorLog2 num den ≤ (num : ℚ) / den ∧
      (num : ℚ) / den < 2 ^ (floorLog2 num den + 1) := by
  obtain ⟨hnumLow, hnumHigh⟩ := log2_bounds hnum
  obtain ⟨hdenLow, hdenHigh⟩ := log2_bounds hden
  have hdenPos : (0 : ℚ) < den := by exact_mod_cast hden
  -- the guess is wrong by one at most
  have hlow : (2 : ℚ) ^ ((num.log2 : Int) - den.log2 - 1) ≤ (num : ℚ) / den := by
    rw [le_div_iff₀ hdenPos]
    calc (2 : ℚ) ^ ((num.log2 : Int) - den.log2 - 1) * den
        ≤ 2 ^ ((num.log2 : Int) - den.log2 - 1) * 2 ^ ((den.log2 : Int) + 1) := by gcongr
      _ = 2 ^ (num.log2 : Int) := by rw [← zpow_add₀ two_ne_zero]; congr 1; ring
      _ ≤ num := hnumLow
  have hhigh : (num : ℚ) / den < 2 ^ ((num.log2 : Int) - den.log2 + 1) := by
    rw [div_lt_iff₀ hdenPos]
    calc (num : ℚ) < 2 ^ ((num.log2 : Int) + 1) := hnumHigh
      _ = 2 ^ ((num.log2 : Int) - den.log2 + 1) * 2 ^ (den.log2 : Int) := by
        rw [← zpow_add₀ two_ne_zero]; congr 1; ring
      _ ≤ 2 ^ ((num.log2 : Int) - den.log2 + 1) * den := by gcongr
  have hguess : (scaleRatio num den (-((num.log2 : Int) - den.log2))).2 ≤
        (scaleRatio num den (-((num.log2 : Int) - den.log2))).1 ↔
      (2 : ℚ) ^ ((num.log2 : Int) - den.log2) ≤ (num : ℚ) / den := by
    obtain ⟨hpos, hratio⟩ := scaleRatio_spec num hden (-((num.log2 : Int) - den.log2))
    have hpos : (0 : ℚ) < (scaleRatio num den (-((num.log2 : Int) - den.log2))).2 := by
      exact_mod_cast hpos
    rw [← Nat.cast_le (α := ℚ), ← one_le_div hpos, hratio, zpow_neg, ← div_eq_mul_inv,
      one_le_div (by positivity)]
  unfold floorLog2
  dsimp only
  split
  · rename_i hle
    exact ⟨hguess.mp hle, hhigh⟩
  · rename_i hlt
    rw [hguess, not_le] at hlt
    exact ⟨hlow, by rwa [Int.sub_add_cancel]⟩

end

namespace Binary64

/-! ## Rounding to double precision -/

/-- The number is `y` or more. -/
def AtLeast (y : ℚ) : Binary64 → Prop
  | finite mantissa exponent => y ≤ mantissa * 2 ^ exponent
  | infinite => True

/-- The exponent of the last place that is kept of a ratio. -/
def lastPlace (num den : Nat) : Int := max (floorLog2 num den - 52) minExponent

/-- How many units of the last place a ratio is rounded to. -/
def units (num den : Nat) : Nat :=
  roundDiv (scaleRatio num den (-lastPlace num den)).1 (scaleRatio num den (-lastPlace num den)).2

section

variable {num den n : Nat} {y : ℚ}

/-- The ratio that is rounded to these units. -/
theorem units_ratio (num : Nat) (hden : 0 < den) :
    0 < (scaleRatio num den (-lastPlace num den)).2 ∧
      ((scaleRatio num den (-lastPlace num den)).1 : ℚ) /
      (scaleRatio num den (-lastPlace num den)).2 =
        (num : ℚ) / den / 2 ^ lastPlace num den := by
  obtain ⟨hpos, hratio⟩ := scaleRatio_spec num hden (-lastPlace num den)
  rw [zpow_neg, ← div_eq_mul_inv] at hratio
  exact ⟨hpos, hratio⟩

theorem le_units_iff (hden : 0 < den) (heven : n % 2 = 0) :
    n ≤ units num den ↔ ((n : ℚ) - 1 / 2) * 2 ^ lastPlace num den ≤ (num : ℚ) / den := by
  obtain ⟨hpos, hratio⟩ := units_ratio num hden
  rw [units, le_roundDiv_iff hpos heven, hratio, le_div_iff₀ (by positivity)]

theorem lt_two_pow_lastPlace (hnum : 0 < num) (hden : 0 < den) :
    (num : ℚ) / den < 2 ^ (lastPlace num den + 53) := by
  refine (floorLog2_bounds hnum hden).2.trans_le (zpow_le_zpow_right₀ one_le_two ?_)
  have hle : floorLog2 num den - 52 ≤ lastPlace num den := le_max_left _ _
  omega

theorem two_pow_lastPlace_le (hnum : 0 < num) (hden : 0 < den)
    (hnormal : minExponent < lastPlace num den) :
    (2 : ℚ) ^ (lastPlace num den + 52) ≤ (num : ℚ) / den := by
  have hlog : lastPlace num den = floorLog2 num den - 52 := by
    unfold lastPlace at hnormal ⊢
    omega
  rw [hlog, Int.sub_add_cancel]
  exact (floorLog2_bounds hnum hden).1

theorem units_le (hnum : 0 < num) (hden : 0 < den) : units num den ≤ 2 ^ 53 := by
  obtain ⟨hpos, hratio⟩ := units_ratio num hden
  apply roundDiv_le hpos
  have hlt := (lt_two_pow_lastPlace hnum hden).le
  rw [zpow_add₀ two_ne_zero, mul_comm] at hlt
  rw [hratio, div_le_iff₀ (by positivity)]
  exact_mod_cast hlt

theorem le_units (hnum : 0 < num) (hden : 0 < den) (hnormal : minExponent < lastPlace num den) :
    2 ^ 52 ≤ units num den := by
  obtain ⟨hpos, hratio⟩ := units_ratio num hden
  apply le_roundDiv hpos
  have hle := two_pow_lastPlace_le hnum hden hnormal
  rw [zpow_add₀ two_ne_zero, mul_comm] at hle
  rw [hratio, le_div_iff₀ (by positivity)]
  exact_mod_cast hle

/-- The mantissa and the exponent. All units of the next power of two are one place too many. -/
def carried (num den : Nat) : Nat × Int :=
  if units num den = 2 ^ 53 then (2 ^ 52, lastPlace num den + 1)
    else (units num den, lastPlace num den)

theorem carried_value (num den : Nat) :
    ((carried num den).1 : ℚ) * 2 ^ (carried num den).2 =
      units num den * 2 ^ lastPlace num den := by
  unfold carried
  split
  · rename_i hfull
    rw [hfull, zpow_add_one₀ two_ne_zero]
    norm_num
    ring
  · rfl

theorem le_carried (hnum : 0 < num) (hden : 0 < den) (hnormal : maxExponent < (carried num den).2) :
    2 ^ 52 ≤ (carried num den).1 := by
  unfold carried at hnormal ⊢
  split
  · exact le_refl _
  · rename_i hless
    rw [if_neg hless] at hnormal
    exact le_units hnum hden (lt_trans (by decide) hnormal)

theorem ofRatio_eq (hnum : 0 < num) :
    ofRatio num den =
      if maxExponent < (carried num den).2 then infinite
      else finite (carried num den).1 (carried num den).2 := by
  unfold ofRatio
  rw [if_neg hnum.ne']
  rfl

/-- What is past the finite numbers is also more than any of them. -/
theorem atLeast_ofRatio_iff (hnum : 0 < num) (hden : 0 < den) (hy : y ≤ 2 ^ (1024 : Int)) :
    (ofRatio num den).AtLeast y ↔ y ≤ units num den * 2 ^ lastPlace num den := by
  rw [ofRatio_eq hnum, ← carried_value]
  split
  · rename_i hlarge
    have hfull : (2 : ℚ) ^ (52 : Int) ≤ (carried num den).1 := by
      exact_mod_cast le_carried hnum hden hlarge
    have hpow : (2 : ℚ) ^ (972 : Int) ≤ 2 ^ (carried num den).2 :=
      zpow_le_zpow_right₀ one_le_two (Int.add_one_le_of_lt hlarge)
    rw [show (1024 : Int) = 52 + 972 from rfl, zpow_add₀ two_ne_zero] at hy
    exact iff_of_true trivial (hy.trans (mul_le_mul hfull hpow (by positivity) (by positivity)))
  · exact Iff.rfl

end

/-! ## Thresholds -/

/-- The number `m · 2 ^ e`, with an even mantissa of all places, is the first that is not below
`y`. -/
structure Ceiling (y : ℚ) (m : Nat) (e : Int) : Prop where
  even : m % 2 = 0
  full : 2 ^ 52 < m ∧ m < 2 ^ 53
  range : minExponent ≤ e ∧ e ≤ maxExponent
  below : ((m : ℚ) - 1) * 2 ^ e < y
  above : y ≤ m * 2 ^ e

namespace Ceiling

variable {num den m : Nat} {e : Int} {y : ℚ}

theorem full_rat (h : Ceiling y m e) : (2 : ℚ) ^ (52 : Int) + 1 ≤ m ∧ (m : ℚ) ≤ 2 ^ (53 : Int) := by
  obtain ⟨hlow, hhigh⟩ := h.full
  exact ⟨by exact_mod_cast hlow, by exact_mod_cast hhigh.le⟩

theorem pos (h : Ceiling y m e) : 0 < y := by
  refine lt_of_le_of_lt ?_ h.below
  have hlow := h.full_rat.1
  have hpow : (0 : ℚ) < 2 ^ (52 : Int) := by positivity
  exact mul_nonneg (by linarith) (by positivity)

theorem not_atLeast_zero (h : Ceiling y m e) : ¬zero.AtLeast y := by
  show ¬y ≤ ((0 : Nat) : ℚ) * 2 ^ minExponent
  simpa using h.pos

theorem middle_bounds (h : Ceiling y m e) :
    (2 : ℚ) ^ (-1022 : Int) ≤ ((m : ℚ) - 1 / 2) * 2 ^ e ∧
      ((m : ℚ) - 1 / 2) * 2 ^ e ≤ 2 ^ (1024 : Int) := by
  obtain ⟨hlow, hhigh⟩ := h.full_rat
  have hpow : (0 : ℚ) < 2 ^ (52 : Int) := by positivity
  have hmin : (2 : ℚ) ^ (-1074 : Int) ≤ 2 ^ e := zpow_le_zpow_right₀ one_le_two h.range.1
  have hmax : (2 : ℚ) ^ e ≤ 2 ^ (971 : Int) := zpow_le_zpow_right₀ one_le_two h.range.2
  rw [show (-1022 : Int) = 52 + -1074 from rfl, show (1024 : Int) = 53 + 971 from rfl,
    zpow_add₀ two_ne_zero, zpow_add₀ two_ne_zero]
  exact ⟨mul_le_mul (by linarith) hmin (by positivity) (by linarith),
    mul_le_mul (by linarith) hmax (by positivity) (by positivity)⟩

theorem middle_pos (h : Ceiling y m e) : 0 < ((m : ℚ) - 1 / 2) * 2 ^ e :=
  lt_of_lt_of_le (by positivity) h.middle_bounds.1

/-- What is rounded to `y` or more, where the last place is that of the first number not below
`y`. -/
theorem le_units_iff (h : Ceiling y m e) (hden : 0 < den) (he : lastPlace num den = e) :
    y ≤ units num den * 2 ^ lastPlace num den ↔ ((m : ℚ) - 1 / 2) * 2 ^ e ≤ (num : ℚ) / den := by
  subst he
  have hpow : (0 : ℚ) < 2 ^ lastPlace num den := by positivity
  rw [← Binary64.le_units_iff hden h.even]
  constructor
  · intro hy
    have hlt : (m : ℚ) - 1 < units num den := lt_of_mul_lt_mul_right (h.below.trans_le hy) hpow.le
    have hlt : (m : ℚ) < units num den + 1 := by linarith
    exact Nat.lt_succ_iff.mp (by exact_mod_cast hlt)
  · intro hm
    have hm : (m : ℚ) ≤ units num den := by exact_mod_cast hm
    exact h.above.trans (mul_le_mul_of_nonneg_right hm hpow.le)

/-- **A ratio is rounded to `y` or more** exactly if it is not below the middle between the two
numbers around `y`. -/
theorem atLeast_ofRatio_iff (h : Ceiling y m e) (hden : 0 < den) :
    (ofRatio num den).AtLeast y ↔ ((m : ℚ) - 1 / 2) * 2 ^ e ≤ (num : ℚ) / den := by
  obtain ⟨hlow, hhigh⟩ := h.full_rat
  obtain rfl | hnum := Nat.eq_zero_or_pos num
  · refine iff_of_false h.not_atLeast_zero ?_
    simpa using h.middle_pos
  have hy : y ≤ 2 ^ (1024 : Int) := by
    have he : (2 : ℚ) ^ e ≤ 2 ^ (971 : Int) := zpow_le_zpow_right₀ one_le_two h.range.2
    rw [show (1024 : Int) = 53 + 971 from rfl, zpow_add₀ two_ne_zero]
    exact h.above.trans (mul_le_mul hhigh he (by positivity) (by positivity))
  rw [Binary64.atLeast_ofRatio_iff hnum hden hy]
  rcases lt_trichotomy (lastPlace num den) e with he | he | he
  · -- all that is rounded at a lower place is below
    have hlt : (2 : ℚ) ^ (lastPlace num den + 53) ≤ 2 ^ (52 : Int) * 2 ^ e := by
      rw [← zpow_add₀ two_ne_zero]
      exact zpow_le_zpow_right₀ one_le_two (by omega)
    refine iff_of_false ?_ ?_
    · have hunits : (units num den : ℚ) ≤ 2 ^ (53 : Int) := by exact_mod_cast units_le hnum hden
      rw [not_le]
      calc (units num den : ℚ) * 2 ^ lastPlace num den
          ≤ 2 ^ (53 : Int) * 2 ^ lastPlace num den := by gcongr
        _ = 2 ^ (lastPlace num den + 53) := by rw [zpow_add₀ two_ne_zero, mul_comm]
        _ ≤ 2 ^ (52 : Int) * 2 ^ e := hlt
        _ ≤ (m - 1) * 2 ^ e := by gcongr; linarith
        _ < y := h.below
    · rw [not_le]
      calc (num : ℚ) / den < 2 ^ (lastPlace num den + 53) := lt_two_pow_lastPlace hnum hden
        _ ≤ 2 ^ (52 : Int) * 2 ^ e := hlt
        _ ≤ (m - 1 / 2) * 2 ^ e := by gcongr; linarith
  · exact h.le_units_iff hden he
  · -- and all that is rounded at a higher place is above
    have hnormal : minExponent < lastPlace num den := lt_of_le_of_lt h.range.1 he
    have hle : (2 : ℚ) ^ (53 : Int) * 2 ^ e ≤ 2 ^ (lastPlace num den + 52) := by
      rw [← zpow_add₀ two_ne_zero]
      exact zpow_le_zpow_right₀ one_le_two (by omega)
    refine iff_of_true ?_ ?_
    · have hunits : (2 : ℚ) ^ (52 : Int) ≤ units num den := by
        exact_mod_cast le_units hnum hden hnormal
      calc y ≤ m * 2 ^ e := h.above
        _ ≤ 2 ^ (53 : Int) * 2 ^ e := by gcongr
        _ ≤ 2 ^ (lastPlace num den + 52) := hle
        _ = 2 ^ (52 : Int) * 2 ^ lastPlace num den := by rw [zpow_add₀ two_ne_zero, mul_comm]
        _ ≤ units num den * 2 ^ lastPlace num den := by gcongr
    · calc ((m : ℚ) - 1 / 2) * 2 ^ e ≤ 2 ^ (53 : Int) * 2 ^ e := by gcongr; linarith
        _ ≤ 2 ^ (lastPlace num den + 52) := hle
        _ ≤ (num : ℚ) / den := two_pow_lastPlace_le hnum hden hnormal

end Ceiling

end Binary64

/-! ## Decimal literals -/

namespace Decimal

/-- The number that is denoted. -/
def value (d : Decimal) : ℚ := d.digits * 10 ^ d.scale

variable {d : Decimal}

theorem width_bounds (hd : d.digits ≠ 0) :
    10 ^ (d.width - 1) ≤ d.digits ∧ d.digits < 10 ^ d.width := by
  have hwidth : d.width = (Nat.toDigits 10 d.digits).length := if_neg hd
  have hpos : 0 < d.width := hwidth ▸ Nat.length_toDigits_pos
  constructor
  · obtain hone | hmore := Nat.eq_or_lt_of_le hpos
    · rw [← hone]
      exact Nat.pos_of_ne_zero hd
    · by_contra hlt
      rw [not_le, ← Nat.length_toDigits_le_iff (by decide) (by omega), ← hwidth] at hlt
      omega
  · rw [← Nat.length_toDigits_le_iff (by decide) hpos, hwidth]

theorem le_value (hd : d.digits ≠ 0) {n : Int} (hn : n < d.scale + d.width) :
    (10 : ℚ) ^ n ≤ d.value := by
  have hdigits : (10 : ℚ) ^ (d.width - 1) ≤ d.digits := by exact_mod_cast (width_bounds hd).1
  have hten : (10 : ℚ) ^ n ≤ 10 ^ (((d.width - 1 : Nat) : Int) + d.scale) :=
    zpow_le_zpow_right₀ (by norm_num) (by omega)
  refine hten.trans ?_
  rw [zpow_add₀ (by norm_num), zpow_natCast]
  exact mul_le_mul_of_nonneg_right hdigits (by positivity)

theorem value_lt (hd : d.digits ≠ 0) {n : Int} (hn : d.scale + d.width ≤ n) : d.value < 10 ^ n := by
  have hdigits : (d.digits : ℚ) < 10 ^ d.width := by exact_mod_cast (width_bounds hd).2
  have hten : (10 : ℚ) ^ ((d.width : Int) + d.scale) ≤ 10 ^ n :=
    zpow_le_zpow_right₀ (by norm_num) (by omega)
  refine lt_of_lt_of_le ?_ hten
  rw [zpow_add₀ (by norm_num), zpow_natCast]
  exact mul_lt_mul_of_pos_right hdigits (by positivity)

end Decimal

namespace Binary64

theorem two_pow_le_ten_pow : (2 : ℚ) ^ (1024 : Int) ≤ 10 ^ (310 : Int) := by
  have hle : (2 : Nat) ^ 1024 ≤ 10 ^ 310 := by decide +kernel
  have hle : ((2 ^ 1024 : Nat) : ℚ) ≤ (10 ^ 310 : Nat) := Nat.cast_le.mpr hle
  rw [Nat.cast_pow, Nat.cast_pow] at hle
  exact hle

theorem ten_pow_le_two_pow : (10 : ℚ) ^ (-330 : Int) ≤ 2 ^ (-1022 : Int) := by
  have hle : (2 : Nat) ^ 1022 ≤ 10 ^ 330 := by decide +kernel
  have hle : ((2 ^ 1022 : Nat) : ℚ) ≤ (10 ^ 330 : Nat) := Nat.cast_le.mpr hle
  rw [Nat.cast_pow, Nat.cast_pow] at hle
  rw [zpow_neg, zpow_neg]
  apply inv_anti₀ (by positivity)
  exact hle

/-- Inside these bounds a literal is rounded as the ratio that it denotes. -/
theorem exists_ofDecimal_eq_ofRatio {d : Decimal} (hd : d.digits ≠ 0)
    (hhigh : d.scale + d.width ≤ 310) (hlow : -330 ≤ d.scale + d.width) :
    ∃ num den, 0 < den ∧ ofDecimal d = ofRatio num den ∧ d.value = (num : ℚ) / den := by
  obtain ⟨digits, scale⟩ := d
  cases scale with
  | ofNat k =>
    have hof : ofDecimal ⟨digits, .ofNat k⟩ = ofRatio (digits * 10 ^ k) 1 := by
      unfold ofDecimal
      rw [if_neg hd, if_neg (not_lt.mpr hhigh), if_neg (not_lt.mpr hlow)]
      rfl
    refine ⟨_, _, Nat.one_pos, hof, ?_⟩
    simp [Decimal.value]
  | negSucc k =>
    have hof : ofDecimal ⟨digits, .negSucc k⟩ = ofRatio digits (10 ^ (k + 1)) := by
      unfold ofDecimal
      rw [if_neg hd, if_neg (not_lt.mpr hhigh), if_neg (not_lt.mpr hlow)]
      rfl
    refine ⟨_, _, Nat.pow_pos (by decide), hof, ?_⟩
    simp [Decimal.value, zpow_negSucc, div_eq_mul_inv]

/-- **Which literals are rounded to `y` or more.** -/
theorem Ceiling.atLeast_ofDecimal_iff {y : ℚ} {m : Nat} {e : Int} (h : Ceiling y m e)
    (d : Decimal) :
    (ofDecimal d).AtLeast y ↔ ((m : ℚ) - 1 / 2) * 2 ^ e ≤ d.value := by
  obtain ⟨hmin, hmax⟩ := h.middle_bounds
  by_cases hd : d.digits = 0
  · have hof : ofDecimal d = zero := if_pos hd
    have hvalue : d.value = 0 := by simp [Decimal.value, hd]
    rw [hof, hvalue]
    exact iff_of_false h.not_atLeast_zero (not_le.mpr h.middle_pos)
  by_cases hlarge : 310 < d.scale + d.width
  · have hof : ofDecimal d = infinite := by
      unfold ofDecimal
      rw [if_neg hd, if_pos hlarge]
    rw [hof]
    exact iff_of_true trivial (hmax.trans (two_pow_le_ten_pow.trans (Decimal.le_value hd hlarge)))
  by_cases hsmall : d.scale + d.width < -330
  · have hof : ofDecimal d = zero := by
      unfold ofDecimal
      rw [if_neg hd, if_neg hlarge, if_pos hsmall]
    rw [hof]
    refine iff_of_false h.not_atLeast_zero (not_le.mpr ?_)
    exact (Decimal.value_lt hd hsmall.le).trans_le (ten_pow_le_two_pow.trans hmin)
  · obtain ⟨num, den, hden, hof, hvalue⟩ :=
      exists_ofDecimal_eq_ofRatio hd (not_lt.mp hlarge) (not_lt.mp hsmall)
    rw [hof, hvalue]
    exact h.atLeast_ofRatio_iff hden

end Binary64

end QubitRouting
