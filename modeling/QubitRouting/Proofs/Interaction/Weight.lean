import Mathlib.Data.Prod.Lex
import Mathlib.Order.Nat
import QubitRouting.Interaction.Weight

/-!
# The order of weights

Double-precision numbers are compared by what they are made of: first by the side of zero they are
on and by whether they are finite, then by their exponents, then by their mantissas, both turned
round below zero. The two zeros count as equal, and a value that is not a number compares with
nothing. So `key` takes all weights other than that one into a linear order, in which they compare
as they do by themselves (`Weight.lt_iff`).
-/

set_option autoImplicit false

namespace QubitRouting

namespace Weight

open Float.Model (UnpackedFloat)

/-- What decides a comparison: side and kind, exponent, mantissa. -/
def parts : UnpackedFloat → Int ×ₗ Int ×ₗ Int
  | .infinity .negative => toLex (-2, toLex (0, 0))
  | .finite .negative mantissa exponent _ => toLex (-1, toLex (-exponent, -mantissa))
  | .zero _ => toLex (0, toLex (0, 0))
  | .finite .positive mantissa exponent _ => toLex (1, toLex (exponent, mantissa))
  | .infinity .positive => toLex (2, toLex (0, 0))
  | .notANumber => toLex (0, toLex (0, 0))

variable {e₁ e₂ : Int} {m₁ m₂ : Nat} {h₁ : 0 < m₁} {h₂ : 0 < m₂}

theorem then_eq_lt_iff :
    (compare e₁ e₂).then (compare m₁ m₂) = .lt ↔ e₁ < e₂ ∨ e₁ = e₂ ∧ m₁ < m₂ := by
  rw [Ordering.then_eq_lt, Int.compare_eq_lt, Int.compare_eq_eq, Nat.compare_eq_lt]

theorem lt_iff_parts_of_positive :
    (UnpackedFloat.finite .positive m₁ e₁ h₁).lt (.finite .positive m₂ e₂ h₂) ↔
      parts (.finite .positive m₁ e₁ h₁) < parts (.finite .positive m₂ e₂ h₂) := by
  have hlt : (some ((compare e₁ e₂).then (compare m₁ m₂)) == some .lt) ↔
      e₁ < e₂ ∨ e₁ = e₂ ∧ m₁ < m₂ := by
    rw [beq_iff_eq, Option.some_inj, then_eq_lt_iff]
  refine hlt.trans ?_
  show _ ↔ toLex ((1 : Int), toLex (e₁, (m₁ : Int))) < toLex (1, toLex (e₂, (m₂ : Int)))
  simp [Prod.Lex.toLex_lt_toLex]

theorem lt_iff_parts_of_negative :
    (UnpackedFloat.finite .negative m₁ e₁ h₁).lt (.finite .negative m₂ e₂ h₂) ↔
      parts (.finite .negative m₁ e₁ h₁) < parts (.finite .negative m₂ e₂ h₂) := by
  have hlt : (some ((compare e₁ e₂).then (compare m₁ m₂)).swap == some .lt) ↔
      e₂ < e₁ ∨ e₂ = e₁ ∧ m₂ < m₁ := by
    rw [beq_iff_eq, Option.some_inj, Ordering.swap_then, Int.compare_swap, Nat.compare_swap,
      then_eq_lt_iff]
  refine hlt.trans ?_
  show _ ↔ toLex ((-1 : Int), toLex (-e₁, -(m₁ : Int))) < toLex (-1, toLex (-e₂, -(m₂ : Int)))
  simp [Prod.Lex.toLex_lt_toLex, eq_comm]

/-- Numbers compare by their parts. Only two finite ones on the same side of zero get as far as
their digits. -/
theorem lt_eq_decide_parts {u v : UnpackedFloat} (hu : u.isNaN = false) (hv : v.isNaN = false) :
    u.lt v = decide (parts u < parts v) := by
  cases u with
  | notANumber => cases hu
  | infinity s =>
    cases v with
    | notANumber => cases hv
    | infinity s' => cases s <;> cases s' <;> rfl
    | zero s' => cases s <;> rfl
    | finite s' m e h => cases s <;> cases s' <;> rfl
  | zero s =>
    cases v with
    | notANumber => cases hv
    | infinity s' => cases s' <;> rfl
    | zero s' => rfl
    | finite s' m e h => cases s' <;> rfl
  | finite s m e h =>
    cases v with
    | notANumber => cases hv
    | infinity s' => cases s <;> cases s' <;> rfl
    | zero s' => cases s <;> rfl
    | finite s' m e h =>
      cases s <;> cases s'
      · exact Bool.eq_iff_iff.mpr (lt_iff_parts_of_negative.trans decide_eq_true_iff.symm)
      · rfl
      · rfl
      · exact Bool.eq_iff_iff.mpr (lt_iff_parts_of_positive.trans decide_eq_true_iff.symm)

/-- The place of a weight in a linear order. -/
def key (w : Weight) : Int ×ₗ Int ×ₗ Int := parts w.toModel.unpack

/-- **Weights are linearly ordered**, up to the two zeros, as long as they are numbers. -/
theorem lt_iff {v w : Weight} (hv : v.isNaN = false) (hw : w.isNaN = false) :
    v < w ↔ v.key < w.key := by
  have hlt : v < w ↔ v.toModel.unpack.lt w.toModel.unpack = true := decide_eq_true_iff
  rw [hlt, lt_eq_decide_parts hv hw, decide_eq_true_iff]
  exact Iff.rfl

end Weight

end QubitRouting
