import Mathlib.Data.List.Induction
import Mathlib.Order.Lattice
import Mathlib.Order.Nat
import QubitRouting.Graph.Best

/-!
# The chosen element is the first maximum

The choices of `Graph/Best.lean` go through a list once and replace their choice only by something
strictly better. Where *better* means that a key is larger, what is chosen in the end has the
largest key, and it is the first element that has it (`IsFirstMax`). One further element either
replaces the choice or does not (`IsFirstMax.concat_of_lt`, `IsFirstMax.concat_of_le`); the loop
follows by induction. Stopping early at a limit that no score exceeds changes nothing
(`firstLargest_eq_firstBest`).
-/

set_option autoImplicit false

namespace QubitRouting

variable {α β κ : Type} [LinearOrder κ] {key : α → κ} {xs : List α} {x c : α}

/-- The first element of a list with the largest key: all keys before it are smaller, and none
behind it is larger. -/
def IsFirstMax (key : α → κ) (xs : List α) (c : α) : Prop :=
  ∃ before after, xs = before ++ c :: after ∧ (∀ x ∈ before, key x < key c) ∧
    ∀ x ∈ after, key x ≤ key c

namespace IsFirstMax

theorem singleton (key : α → κ) (c : α) : IsFirstMax key [c] c := by
  refine ⟨[], [], rfl, ?_, ?_⟩
  · simp
  · simp

theorem mem (h : IsFirstMax key xs c) : c ∈ xs := by
  obtain ⟨before, after, rfl, -, -⟩ := h
  simp

theorem le (h : IsFirstMax key xs c) (hx : x ∈ xs) : key x ≤ key c := by
  obtain ⟨before, after, rfl, hbefore, hafter⟩ := h
  rcases List.mem_append.mp hx with hx | hx
  · exact le_of_lt (hbefore x hx)
  · rcases List.mem_cons.mp hx with rfl | hx
    · exact le_refl _
    · exact hafter x hx

/-- Of two first maxima none comes before the other. -/
theorem unique {d : α} (hc : IsFirstMax key xs c) (hd : IsFirstMax key xs d) : c = d := by
  obtain ⟨before, after, rfl, hbefore, -⟩ := id hc
  obtain ⟨before', after', hsplit, hbefore', -⟩ := id hd
  have hplace : (before ++ c :: after)[before.length]? = some c := by simp
  have hplace' : (before ++ c :: after)[before'.length]? = some d := by simp [hsplit]
  rcases lt_trichotomy before.length before'.length with hlt | heq | hlt
  · rw [hsplit, List.getElem?_append_left hlt] at hplace
    exact absurd (hbefore' c (List.mem_of_getElem? hplace)) (not_lt_of_ge (hc.le hd.mem))
  · rw [← heq, hplace] at hplace'
    exact Option.some.inj hplace'
  · rw [List.getElem?_append_left hlt] at hplace'
    exact absurd (hbefore d (List.mem_of_getElem? hplace')) (not_lt_of_ge (hd.le hc.mem))

/-- Where all keys are the same, the first element is the first maximum. -/
theorem head?_eq (h : IsFirstMax key xs c) (hsame : ∀ x ∈ xs, key x = key c) :
    xs.head? = some c := by
  obtain ⟨before, after, rfl, hbefore, -⟩ := h
  cases before with
  | nil => rfl
  | cons y before =>
    have hlt := hbefore y List.mem_cons_self
    rw [hsame y (by simp)] at hlt
    exact absurd hlt (lt_irrefl _)

/-- A further element that is not larger stays behind. -/
theorem concat_of_le (h : IsFirstMax key xs c) (hle : key x ≤ key c) :
    IsFirstMax key (xs ++ [x]) c := by
  obtain ⟨before, after, rfl, hbefore, hafter⟩ := h
  refine ⟨before, after ++ [x], by simp, hbefore, ?_⟩
  intro y hy
  rcases List.mem_append.mp hy with hy | hy
  · exact hafter y hy
  · rw [List.mem_singleton.mp hy]
    exact hle

/-- A further element that is larger than the first maximum is larger than all before it. -/
theorem concat_of_lt (h : IsFirstMax key xs c) (hlt : key c < key x) :
    IsFirstMax key (xs ++ [x]) x := by
  refine ⟨xs, [], rfl, ?_, by simp⟩
  intro y hy
  exact lt_of_le_of_lt (h.le hy) hlt

end IsFirstMax

/-- **The loop chooses the first maximum**, if scores are compared by their keys. -/
theorem foldl_pickBetter_isFirstMax {better : β → β → Bool} {score : α → β}
    (hbetter : ∀ y ∈ x :: xs, ∀ z ∈ x :: xs, better (score z) (score y) ↔ key y < key z) :
    ∃ c, xs.foldl (fun chosen y => pickBetter better chosen (y, score y)) (x, score x) =
      (c, score c) ∧
      IsFirstMax key (x :: xs) c := by
  induction xs using List.reverseRecOn with
  | nil => exact ⟨x, rfl, .singleton key x⟩
  | append_singleton xs y ih =>
    have hsub : ∀ {z : α}, z ∈ x :: xs → z ∈ x :: (xs ++ [y]) := by
      intro z hz
      exact List.mem_append_left [y] hz
    have hy : y ∈ x :: (xs ++ [y]) := by simp
    obtain ⟨c, hfold, hmax⟩ := ih fun y hy z hz => hbetter y (hsub hy) z (hsub hz)
    have hnext := hbetter c (hsub hmax.mem) y hy
    rw [List.foldl_append, hfold, List.foldl_cons, List.foldl_nil, pickBetter]
    by_cases hlt : key c < key y
    · rw [if_pos (hnext.mpr hlt)]
      exact ⟨y, rfl, hmax.concat_of_lt hlt⟩
    · rw [if_neg fun h => hlt (hnext.mp h)]
      exact ⟨c, rfl, hmax.concat_of_le (le_of_not_gt hlt)⟩

theorem firstBest_isFirstMax {better : β → β → Bool} {score : α → β} {b : α × β}
    (hbetter : ∀ y ∈ xs, ∀ z ∈ xs, better (score z) (score y) ↔ key y < key z)
    (h : firstBest better score xs = some b) : IsFirstMax key xs b.1 := by
  cases xs with
  | nil => exact absurd h (by simp [firstBest])
  | cons x xs =>
    obtain ⟨c, hfold, hmax⟩ := foldl_pickBetter_isFirstMax hbetter
    rw [firstBest, hfold] at h
    obtain rfl := Option.some.inj h
    exact hmax

/-! ## Stopping at a limit -/

/-- What has reached the limit is not replaced. -/
theorem foldl_pickBetter_of_le {score : α → Nat} {limit : Nat} (hlimit : ∀ y ∈ xs, score y ≤ limit)
    {chosen : α × Nat} (hchosen : limit ≤ chosen.2) :
    xs.foldl (fun chosen y => pickBetter (fun a b => b < a) chosen (y, score y)) chosen =
      chosen := by
  induction xs with
  | nil => rfl
  | cons y xs ih =>
    obtain ⟨hy, hxs⟩ := List.forall_mem_cons.mp hlimit
    have hkeep : pickBetter (fun a b : Nat => b < a) chosen (y, score y) = chosen := by
      rw [pickBetter, if_neg]
      simp only [decide_eq_true_eq]
      omega
    rw [List.foldl_cons, hkeep]
    exact ih hxs

theorem firstLargest_go_eq {score : α → Nat} {limit : Nat} (hlimit : ∀ y ∈ xs, score y ≤ limit)
    (chosen : α × Nat) :
    firstLargest.go limit score chosen xs =
      xs.foldl (fun chosen y => pickBetter (fun a b => b < a) chosen (y, score y)) chosen := by
  induction xs generalizing chosen with
  | nil => rfl
  | cons y xs ih =>
    rw [firstLargest.go]
    split
    · rename_i hreached
      exact (foldl_pickBetter_of_le hlimit hreached).symm
    · exact ih (List.forall_mem_cons.mp hlimit).2 _

/-- A limit that no score exceeds does not matter. -/
theorem firstLargest_eq_firstBest {score : α → Nat} {limit : Nat}
    (hlimit : ∀ y ∈ xs, score y ≤ limit) :
    firstLargest limit score xs = firstBest (fun a b => b < a) score xs := by
  cases xs with
  | nil => rfl
  | cons x xs =>
    rw [firstLargest, firstBest, firstLargest_go_eq (List.forall_mem_cons.mp hlimit).2]

theorem firstLargest_isFirstMax {score : α → Nat} {limit : Nat} (hlimit : ∀ y ∈ xs, score y ≤ limit)
    {b : α × Nat} (h : firstLargest limit score xs = some b) : IsFirstMax score xs b.1 := by
  rw [firstLargest_eq_firstBest hlimit] at h
  exact firstBest_isFirstMax (fun y _ z _ => decide_eq_true_iff) h

end QubitRouting
