/-!
# Choosing the best element

The first element of a list whose score no other element exceeds. Scores are compared by `better`,
and only a strictly better score replaces an earlier choice.
-/

set_option autoImplicit false

namespace QubitRouting

/-- The better of a choice made so far and a new element. -/
def pickBetter {α β : Type} (better : β → β → Bool) (chosen : α × β) (next : α × β) : α × β :=
  if better next.2 chosen.2 then next else chosen

/-- The first best element, with its score. -/
def firstBest {α β : Type} (better : β → β → Bool) (score : α → β) : List α → Option (α × β)
  | [] => none
  | x :: xs => some (xs.foldl (fun chosen y => pickBetter better chosen (y, score y)) (x, score x))

/-- The first element with the largest score, for scores that never exceed `limit`: the search ends
at an element that reaches it. -/
def firstLargest {α : Type} (limit : Nat) (score : α → Nat) : List α → Option (α × Nat)
  | [] => none
  | x :: xs => some (go (x, score x) xs)
where
  go (chosen : α × Nat) : List α → α × Nat
    | [] => chosen
    | y :: ys =>
      if limit ≤ chosen.2 then chosen
      else go (pickBetter (fun a b => b < a) chosen (y, score y)) ys

/-! ## What is chosen is one of the elements -/

theorem pickBetter_eq_or {α β : Type} (better : β → β → Bool) (chosen next : α × β) :
    pickBetter better chosen next = chosen ∨ pickBetter better chosen next = next := by
  rw [pickBetter]
  split
  · exact Or.inr rfl
  · exact Or.inl rfl

theorem foldl_pickBetter_mem {α β : Type} (better : β → β → Bool) (score : α → β) (xs : List α)
    (chosen : α × β) :
    xs.foldl (fun chosen y => pickBetter better chosen (y, score y)) chosen = chosen ∨
      (xs.foldl (fun chosen y => pickBetter better chosen (y, score y)) chosen).1 ∈ xs := by
  induction xs generalizing chosen with
  | nil => exact Or.inl rfl
  | cons x xs ih =>
    rw [List.foldl_cons]
    rcases ih (pickBetter better chosen (x, score x)) with h | h
    · rw [h]
      rcases pickBetter_eq_or better chosen (x, score x) with h' | h'
      · exact Or.inl h'
      · exact Or.inr (by simp [h'])
    · exact Or.inr (List.mem_cons_of_mem x h)

theorem firstBest_mem {α β : Type} {better : β → β → Bool} {score : α → β} {xs : List α} {c : α × β}
    (h : firstBest better score xs = some c) : c.1 ∈ xs := by
  cases xs with
  | nil => exact absurd h (by simp [firstBest])
  | cons x xs =>
    obtain rfl := Option.some.inj h
    rcases foldl_pickBetter_mem better score xs (x, score x) with h' | h'
    · rw [h']
      exact List.mem_cons_self
    · exact List.mem_cons_of_mem x h'

theorem firstBest_eq_none_iff {α β : Type} {better : β → β → Bool} {score : α → β} {xs : List α} :
    firstBest better score xs = none ↔ xs = [] := by
  cases xs <;> simp [firstBest]

theorem firstLargest_go_mem {α : Type} (limit : Nat) (score : α → Nat) (xs : List α)
    (chosen : α × Nat) :
    firstLargest.go limit score chosen xs = chosen ∨
      (firstLargest.go limit score chosen xs).1 ∈ xs := by
  induction xs generalizing chosen with
  | nil => exact Or.inl rfl
  | cons x xs ih =>
    rw [firstLargest.go]
    split
    · exact Or.inl rfl
    · rcases ih (pickBetter (fun a b => b < a) chosen (x, score x)) with h | h
      · rw [h]
        rcases pickBetter_eq_or (fun a b : Nat => decide (b < a)) chosen (x, score x) with h' | h'
        · exact Or.inl h'
        · exact Or.inr (by simp [h'])
      · exact Or.inr (List.mem_cons_of_mem x h)

theorem firstLargest_mem {α : Type} {limit : Nat} {score : α → Nat} {xs : List α} {c : α × Nat}
    (h : firstLargest limit score xs = some c) : c.1 ∈ xs := by
  cases xs with
  | nil => exact absurd h (by simp [firstLargest])
  | cons x xs =>
    obtain rfl := Option.some.inj h
    rcases firstLargest_go_mem limit score xs (x, score x) with h' | h'
    · rw [h']
      exact List.mem_cons_self
    · exact List.mem_cons_of_mem x h'

end QubitRouting
