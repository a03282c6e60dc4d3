import Mathlib.Data.Finset.Card
import QubitRouting.Proofs.Layout.Moves

/-!
# Layouts and their histories

Every layout comes about by moves from the empty one: qubits are assigned to places and places are
swapped, in any order and with any arguments. Where a qubit is after moves can be told from the
moves alone, qubit by qubit (`Move.track`), without the two maps that a layout keeps. Both maps
agree with that, whatever the moves were (`afterAll_tracked`), and swaps can be taken back.
-/

set_option autoImplicit false

namespace QubitRouting

namespace Swap

/-- Swaps are undone by the same swaps in reverse order. -/
theorem carry_reverse_carry (ss : List Swap) (p : PhysicalQubit) :
    carry ss.reverse (carry ss p) = p := by
  induction ss generalizing p with
  | nil => rfl
  | cons s ss ih =>
    rw [List.reverse_cons, carry_append, carry_cons s ss p, ih]
    show s.perm (s.perm p) = p
    exact s.perm_perm p

end Swap

namespace Layout

/-- A change of a layout. -/
inductive Move where
  | assign (l : LogicalQubit) (p : PhysicalQubit)
  | swap (s : Swap)
deriving Repr, DecidableEq

/-- The layout after a move. -/
def after (m : Layout) : Move → Layout
  | .assign l p => m.assign l p
  | .swap s => m.swap s

/-- The layout after moves in order. -/
def afterAll (m : Layout) (moves : List Move) : Layout := moves.foldl after m

/-- Where a move leaves qubits that sat at `place`. A qubit goes where it is assigned, and another
one that sat there has no place any more; a swap carries all qubits along. -/
def Move.track (place : LogicalQubit → Option PhysicalQubit) :
    Move → LogicalQubit → Option PhysicalQubit
  | .assign l p, k => if k = l then some p else (place k).filter (· ≠ p)
  | .swap s, k => (place k).map s.perm

/-- Where moves leave qubits that had no place before. -/
def Move.trackAll (moves : List Move) : LogicalQubit → Option PhysicalQubit :=
  moves.foldl Move.track fun _ => none

variable {m m' : Layout}

/-! ## Layouts follow the moves -/

/-- A qubit that has lost its place to another one is not placed any more. -/
theorem physical_assign_eq_filter (m : Layout) (l k : LogicalQubit) (p : PhysicalQubit) :
    (m.assign l p).physical k = if k = l then some p else (m.physical k).filter (· ≠ p) := by
  rw [physical_assign]
  by_cases hkl : k = l
  · rw [if_pos hkl.symm, if_pos hkl]
  · rw [if_neg (Ne.symm hkl), if_neg hkl]
    simp only [← physical_eq_some_iff]
    cases m.physical k with
    | none => simp
    | some q =>
      by_cases hqp : q = p
      · simp [hqp, Option.filter_some]
      · simp [hqp, Option.filter_some]

theorem physical_after (m : Layout) (move : Move) :
    (m.after move).physical = move.track m.physical := by
  funext k
  cases move with
  | assign l p => exact physical_assign_eq_filter m l k p
  | swap s => exact physical_swap m s k

theorem physical_afterAll (m : Layout) (moves : List Move) :
    (m.afterAll moves).physical = moves.foldl Move.track m.physical := by
  induction moves generalizing m with
  | nil => rfl
  | cons move moves ih =>
    show ((m.after move).afterAll moves).physical = moves.foldl Move.track (move.track m.physical)
    rw [ih, physical_after]

/-- **A layout holds what the moves that made it say.** -/
theorem physical_afterAll_empty (moves : List Move) (l : LogicalQubit) :
    (empty.afterAll moves).physical l = Move.trackAll moves l := by
  have hempty : empty.physical = fun _ => none := by
    funext k
    exact physical_empty
  rw [physical_afterAll, hempty]
  rfl

/-! ## Swaps keep all but the places -/

/-- The size counts the placed qubits. -/
theorem size_eq_card (m : Layout) : m.size = m.places.keys.toFinset.card := by
  rw [List.toFinset_card_of_nodup Std.ExtTreeMap.nodup_keys, Std.ExtTreeMap.length_keys]
  rfl

theorem size_eq_of_isPlaced_iff (h : ∀ l, m.isPlaced l ↔ m'.isPlaced l) : m.size = m'.size := by
  rw [size_eq_card, size_eq_card]
  congr 1
  apply Finset.ext
  intro l
  rw [List.mem_toFinset, List.mem_toFinset, Std.ExtTreeMap.mem_keys, Std.ExtTreeMap.mem_keys]
  exact h l

/-- Layouts are equal if every qubit has the same place in both. -/
theorem ext_physical (h : ∀ l, m.physical l = m'.physical l) : m = m' := by
  have hplaces : m.places = m'.places := Std.ExtTreeMap.ext_getElem? h
  have hoccupants : m.occupants = m'.occupants := by
    apply Std.ExtTreeMap.ext_getElem?
    intro p
    apply Option.ext
    intro l
    rw [← m.consistent, ← m'.consistent, hplaces]
  cases m
  cases m'
  cases hplaces
  cases hoccupants
  rfl

theorem swaps_reverse (m : Layout) (ss : List Swap) : (m.swaps ss).swaps ss.reverse = m := by
  apply ext_physical
  intro l
  rw [physical_swaps, physical_swaps, Option.map_map]
  cases m.physical l with
  | none => rfl
  | some p => exact congrArg some (Swap.carry_reverse_carry ss p)

/-- **A layout is a bijection, whatever happened to it**: both of its directions tell where the
moves have left the qubits, so no two qubits share a place and the occupied places are those of the
placed qubits. Swaps permute the places of such a layout by their transpositions. They place the
same qubits, and in reverse order they lead back to it. -/
theorem afterAll_tracked (moves : List Move) :
    (∀ l, (empty.afterAll moves).physical l = Move.trackAll moves l) ∧
    (∀ l p, (empty.afterAll moves).logical p = some l ↔ Move.trackAll moves l = some p) ∧
    (∀ l p, (empty.afterAll moves).physical l = some p ↔
      (empty.afterAll moves).logical p = some l) ∧
    (∀ l k p, Move.trackAll moves l = some p → Move.trackAll moves k = some p → l = k) ∧
    (∀ l, (empty.afterAll moves).isPlaced l ↔ ∃ p, Move.trackAll moves l = some p) ∧
    (∀ p, (empty.afterAll moves).isOccupied p ↔ ∃ l, Move.trackAll moves l = some p) ∧
    ∀ ss : List Swap,
      (∀ l, ((empty.afterAll moves).swaps ss).physical l =
        ((empty.afterAll moves).physical l).map (Swap.carry ss)) ∧
      (∀ l, ((empty.afterAll moves).swaps ss).isPlaced l ↔ (empty.afterAll moves).isPlaced l) ∧
      ((empty.afterAll moves).swaps ss).size = (empty.afterAll moves).size ∧
      ((empty.afterAll moves).swaps ss).swaps ss.reverse = empty.afterAll moves := by
  have hphysical := physical_afterAll_empty moves
  have hlogical : ∀ l p, (empty.afterAll moves).logical p = some l ↔
      Move.trackAll moves l = some p := by
    intro l p
    rw [← hphysical, physical_eq_some_iff]
  refine ⟨hphysical, hlogical, fun l p => physical_eq_some_iff, ?_, ?_, ?_, ?_⟩
  · intro l k p hl hk
    rw [← hphysical] at hl hk
    exact physical_inj hl hk
  · intro l
    rw [isPlaced_iff, hphysical]
  · intro p
    simp only [isOccupied_iff, hlogical]
  · intro ss
    exact ⟨physical_swaps _ ss, fun l => isPlaced_swaps,
      size_eq_of_isPlaced_iff fun l => isPlaced_swaps, swaps_reverse _ ss⟩

/-- A qubit that moves away and back, one that takes the place of another, and swaps of the same
place and of empty ones. -/
example :
    let moves := [Move.assign ⟨0⟩ ⟨5⟩, .assign ⟨1⟩ ⟨6⟩, .swap (⟨5⟩, ⟨7⟩), .swap (⟨6⟩, ⟨6⟩),
      .assign ⟨2⟩ ⟨6⟩, .assign ⟨0⟩ ⟨5⟩, .swap (⟨8⟩, ⟨9⟩)]
    (empty.afterAll moves).toList = [(⟨0⟩, ⟨5⟩), (⟨2⟩, ⟨6⟩)] := by
  decide +kernel

end Layout

end QubitRouting
