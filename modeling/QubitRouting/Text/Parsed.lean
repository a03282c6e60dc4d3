/-!
# Reading from the front of a list

Readers take a list of characters or lexemes and return a value with what is left of the list. That
what is left is shorter is part of the result, so a reader can be repeated until nothing is left.
-/

set_option autoImplicit false

namespace QubitRouting

theorem Text.drop_length_le {α : Type} (n : Nat) (xs : List α) : (xs.drop n).length ≤ xs.length :=
  (List.drop_sublist n xs).length_le

theorem Text.dropWhile_length_le {α : Type} (p : α → Bool) (xs : List α) :
    (xs.dropWhile p).length ≤ xs.length :=
  (List.dropWhile_sublist p).length_le

theorem Text.length_lt_of_drop_eq_cons {α : Type} {n : Nat} {xs : List α} {y : α} {ys : List α}
    (h : xs.drop n = y :: ys) : ys.length < xs.length := by
  have := Text.drop_length_le n xs
  rw [h] at this
  exact this

/-- A value read from the front of `input`, and what remains of it. -/
structure Parsed (α : Type) {τ : Type} (input : List τ) where
  value : α
  rest : List τ
  shorter : rest.length < input.length

namespace Parsed

/-- The same reading with another value. -/
def map {α β τ : Type} {input : List τ} (f : α → β) (p : Parsed α input) : Parsed β input :=
  ⟨f p.value, p.rest, p.shorter⟩

/-- The same reading, of an input with one more element in front. -/
def behind {α τ : Type} {input : List τ} (x : τ) (p : Parsed α input) : Parsed α (x :: input) :=
  ⟨p.value, p.rest, Nat.lt_succ_of_lt p.shorter⟩

/-- A reading of one element. -/
def one {α τ : Type} (value : α) (x : τ) (input : List τ) : Parsed α (x :: input) :=
  ⟨value, input, Nat.lt_succ_self _⟩

/-- A reading of a shorter list is a reading of a longer one. -/
def within {α τ : Type} {part input : List τ} (p : Parsed α part) (h : part.length ≤ input.length) :
    Parsed α input :=
  ⟨p.value, p.rest, Nat.lt_of_lt_of_le p.shorter h⟩

/-- A reading of what another one left is a reading of its input. -/
def after {α β τ : Type} {input : List τ} (p : Parsed α input) (q : Parsed β p.rest) :
    Parsed β input :=
  ⟨q.value, q.rest, Nat.lt_trans q.shorter p.shorter⟩

end Parsed

/-- A value read from the front of `input`, possibly from nothing, and what remains of it. -/
structure Passed (α : Type) {τ : Type} (input : List τ) where
  value : α
  rest : List τ
  notLonger : rest.length ≤ input.length

namespace Passed

/-- A reading of nothing. -/
def nothing {α τ : Type} (value : α) (input : List τ) : Passed α input :=
  ⟨value, input, Nat.le_refl _⟩

/-- A reading of something. -/
def ofParsed {α τ : Type} {input : List τ} (p : Parsed α input) : Passed α input :=
  ⟨p.value, p.rest, Nat.le_of_lt p.shorter⟩

/-- The same reading with another value. -/
def map {α β τ : Type} {input : List τ} (f : α → β) (p : Passed α input) : Passed β input :=
  ⟨f p.value, p.rest, p.notLonger⟩

/-- A reading of a shorter list is a reading of a longer one. -/
def within {α τ : Type} {part input : List τ} (p : Passed α part) (h : part.length ≤ input.length) :
    Passed α input :=
  ⟨p.value, p.rest, Nat.le_trans p.notLonger h⟩

/-- The same reading, of an input with one more element in front. -/
def behind {α τ : Type} {input : List τ} (x : τ) (p : Passed α input) : Parsed α (x :: input) :=
  ⟨p.value, p.rest, Nat.lt_succ_of_le p.notLonger⟩

end Passed

end QubitRouting
