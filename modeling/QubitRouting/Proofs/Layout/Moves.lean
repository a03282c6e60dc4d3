import Mathlib.Logic.Equiv.Basic
import QubitRouting.Layout

/-!
# Layouts under moves

A layout is read in two ways, by `physical` and by `logical`. Here is what the moves do to both. A
swap is a transposition of the physical qubits, a list of swaps the composition of them
(`Swap.carry`), and a layout after swaps is the old one with every place carried along.
-/

set_option autoImplicit false

namespace QubitRouting

namespace Swap

/-- A swap as a permutation of the places. -/
def perm (s : Swap) : Equiv.Perm PhysicalQubit := Equiv.swap s.1 s.2

/-- Where swaps, performed in order, carry the places. -/
def carry : List Swap → Equiv.Perm PhysicalQubit
  | [] => Equiv.refl _
  | s :: ss => s.perm.trans (carry ss)

@[simp] theorem carry_nil (p : PhysicalQubit) : carry [] p = p := rfl

@[simp] theorem carry_cons (s : Swap) (ss : List Swap) (p : PhysicalQubit) :
    carry (s :: ss) p = carry ss (s.perm p) := rfl

theorem carry_append (ss ss' : List Swap) (p : PhysicalQubit) :
    carry (ss ++ ss') p = carry ss' (carry ss p) := by
  induction ss generalizing p with
  | nil => rfl
  | cons s ss ih => rw [List.cons_append, carry_cons, ih, carry_cons]

@[simp] theorem perm_perm (s : Swap) (p : PhysicalQubit) : s.perm (s.perm p) = p :=
  Equiv.swap_apply_self s.1 s.2 p

end Swap

namespace Layout

variable {m : Layout} {l k : LogicalQubit} {p q : PhysicalQubit}

/-- No two qubits share a place. -/
theorem physical_inj (hl : m.physical l = some p) (hk : m.physical k = some p) : l = k := by
  rw [physical_eq_some_iff] at hl hk
  exact Option.some.inj (hl.symm.trans hk)

theorem isPlaced_iff : m.isPlaced l ↔ ∃ p, m.physical l = some p := by
  rw [isPlaced, Std.ExtTreeMap.contains_iff_mem, Std.ExtTreeMap.mem_iff_isSome_getElem?,
    Option.isSome_iff_exists]
  exact Iff.rfl

theorem isOccupied_iff : m.isOccupied p ↔ ∃ l, m.logical p = some l := by
  rw [isOccupied, Std.ExtTreeMap.contains_iff_mem, Std.ExtTreeMap.mem_iff_isSome_getElem?,
    Option.isSome_iff_exists]
  exact Iff.rfl

theorem logical_eq_none_of_not_isOccupied (h : ¬m.isOccupied p) : m.logical p = none :=
  Option.eq_none_iff_forall_ne_some.mpr fun l hl => h (isOccupied_iff.mpr ⟨l, hl⟩)

@[simp] theorem physical_empty : empty.physical l = none := by
  simp [empty, physical]

theorem not_isPlaced_empty : ¬empty.isPlaced l := by
  simp [isPlaced_iff]

theorem not_isOccupied_empty : ¬empty.isOccupied p := by
  simp [isOccupied_iff, ← physical_eq_some_iff]

/-! ## Assignments -/

theorem physical_assign (m : Layout) (l k : LogicalQubit) (p : PhysicalQubit) :
    (m.assign l p).physical k =
      if l = k then some p else if m.logical p = some k then none else m.physical k := by
  have herase : (eraseSome m.places (m.logical p))[k]? =
      if m.logical p = some k then none else m.places[k]? := by
    cases hp : m.logical p with
    | none => simp [eraseSome]
    | some j =>
      simp only [eraseSome, Std.ExtTreeMap.getElem?_erase, Std.LawfulEqCmp.compare_eq_iff_eq,
        Option.some.injEq]
  simp only [assign, physical, Std.ExtTreeMap.getElem?_insert, Std.LawfulEqCmp.compare_eq_iff_eq,
    herase]

/-- A qubit put on a free place: it is there, and all others are where they were. -/
theorem physical_assign_free (hp : ¬m.isOccupied p) :
    (m.assign l p).physical k = if l = k then some p else m.physical k := by
  rw [physical_assign, logical_eq_none_of_not_isOccupied hp]
  simp

theorem isPlaced_assign_free (hp : ¬m.isOccupied p) :
    (m.assign l p).isPlaced k ↔ l = k ∨ m.isPlaced k := by
  rw [isPlaced_iff, physical_assign_free hp, isPlaced_iff]
  by_cases h : l = k
  · simp [h]
  · simp [h]

/-- A qubit that had no place takes one more place and leaves none. -/
theorem isOccupied_assign_free (hl : ¬m.isPlaced l) (hp : ¬m.isOccupied p) :
    (m.assign l p).isOccupied q ↔ p = q ∨ m.isOccupied q := by
  simp only [isOccupied_iff, ← physical_eq_some_iff, physical_assign_free hp]
  constructor
  · rintro ⟨k, hk⟩
    split at hk
    · exact Or.inl (Option.some.inj hk)
    · exact Or.inr ⟨k, hk⟩
  · rintro (rfl | ⟨k, hk⟩)
    · exact ⟨l, if_pos rfl⟩
    · have hlk : l ≠ k := by
        rintro rfl
        exact hl (isPlaced_iff.mpr ⟨q, hk⟩)
      exact ⟨k, by rw [if_neg hlk]; exact hk⟩

/-! ## Swaps -/

theorem getElem?_put {α β : Type} [Ord α] [Std.TransOrd α] [Std.LawfulEqOrd α] [DecidableEq α]
    (t : Std.ExtTreeMap α β) (a x : α) (b : Option β) :
    (put t a b)[x]? = if a = x then b else t[x]? := by
  cases b with
  | none => simp only [put, Std.ExtTreeMap.getElem?_erase, Std.LawfulEqCmp.compare_eq_iff_eq]
  | some b => simp only [put, Std.ExtTreeMap.getElem?_insert, Std.LawfulEqCmp.compare_eq_iff_eq]

theorem logical_swap (m : Layout) (s : Swap) (p : PhysicalQubit) :
    (m.swap s).logical p = m.logical (s.perm p) := by
  have hput : (m.swap s).logical p =
      if s.1 = p then m.logical s.2 else if s.2 = p then m.logical s.1 else m.logical p := by
    simp only [swap, logical, getElem?_put]
  rw [hput, Swap.perm, Equiv.swap_apply_def]
  by_cases h₁ : s.1 = p
  · simp [h₁]
  · by_cases h₂ : s.2 = p
    · simp [h₁, h₂, Ne.symm h₁]
    · simp [h₁, h₂, Ne.symm h₁, Ne.symm h₂]

theorem physical_swap (m : Layout) (s : Swap) (l : LogicalQubit) :
    (m.swap s).physical l = (m.physical l).map s.perm := by
  refine Option.ext fun p => ?_
  rw [physical_eq_some_iff, logical_swap, ← physical_eq_some_iff, Option.map_eq_some_iff]
  constructor
  · intro h
    exact ⟨s.perm p, h, s.perm_perm p⟩
  · rintro ⟨q, hq, rfl⟩
    rw [s.perm_perm]
    exact hq

/-- **Swaps carry every place along.** -/
theorem physical_swaps (m : Layout) (ss : List Swap) (l : LogicalQubit) :
    (m.swaps ss).physical l = (m.physical l).map (Swap.carry ss) := by
  induction ss generalizing m with
  | nil =>
    rw [swaps, List.foldl_nil]
    cases m.physical l <;> rfl
  | cons s ss ih =>
    rw [swaps, List.foldl_cons, ← swaps, ih, physical_swap, Option.map_map]
    rfl

theorem physical_swaps_eq_some_iff {ss : List Swap} :
    (m.swaps ss).physical l = some q ↔ ∃ p, m.physical l = some p ∧ Swap.carry ss p = q := by
  rw [physical_swaps, Option.map_eq_some_iff]

theorem logical_swaps_carry (m : Layout) (ss : List Swap) (p : PhysicalQubit) :
    (m.swaps ss).logical (Swap.carry ss p) = m.logical p := by
  apply Option.ext
  intro l
  rw [← physical_eq_some_iff, physical_swaps_eq_some_iff, ← physical_eq_some_iff]
  constructor
  · rintro ⟨q, hq, hcarry⟩
    rwa [← (Swap.carry ss).injective hcarry]
  · intro hp
    exact ⟨p, hp, rfl⟩

/-- Swaps place the same qubits. -/
theorem isPlaced_swaps {ss : List Swap} : (m.swaps ss).isPlaced l ↔ m.isPlaced l := by
  rw [isPlaced_iff, isPlaced_iff, physical_swaps]
  cases m.physical l with
  | none => simp
  | some p => simp

end Layout

end QubitRouting
