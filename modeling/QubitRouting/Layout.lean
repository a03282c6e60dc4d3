import QubitRouting.Qubit
import Std.Data.ExtTreeMap

/-!
# Layouts

A layout says where the logical qubits sit: a partial one-to-one correspondence between logical and
physical qubits, kept in both directions. Layouts are equal when they place the same qubits in the
same way.
-/

set_option autoImplicit false

namespace QubitRouting

/-- An exchange of what two physical qubits hold. -/
abbrev Swap := PhysicalQubit × PhysicalQubit

namespace Swap

/-- How circuits show a swap. -/
def text (s : Swap) : String := s!"{s.1.label},{s.2.label}"

end Swap

/-- A partial one-to-one correspondence between logical and physical qubits. -/
structure Layout where
  places : Std.ExtTreeMap LogicalQubit PhysicalQubit
  occupants : Std.ExtTreeMap PhysicalQubit LogicalQubit
  consistent : ∀ (l : LogicalQubit) (p : PhysicalQubit), places[l]? = some p ↔
    occupants[p]? = some l

namespace Layout

/-- Nothing is placed. -/
def empty : Layout where
  places := ∅
  occupants := ∅
  consistent := by simp

instance : Inhabited Layout := ⟨empty⟩

/-- Where a logical qubit sits. -/
def physical (m : Layout) (l : LogicalQubit) : Option PhysicalQubit := m.places[l]?

/-- Which logical qubit sits here. -/
def logical (m : Layout) (p : PhysicalQubit) : Option LogicalQubit := m.occupants[p]?

def isPlaced (m : Layout) (l : LogicalQubit) : Bool := m.places.contains l

def isOccupied (m : Layout) (p : PhysicalQubit) : Bool := m.occupants.contains p

/-- The number of qubits placed. -/
def size (m : Layout) : Nat := m.places.size

/-- The placed qubits with their places, by logical qubit. -/
def toList (m : Layout) : List (LogicalQubit × PhysicalQubit) := m.places.toList

theorem physical_eq_some_iff {m : Layout} {l : LogicalQubit} {p : PhysicalQubit} :
    m.physical l = some p ↔ m.logical p = some l := m.consistent l p

/-- Removes an entry that may be there. -/
def eraseSome {α β : Type} [Ord α] [Std.TransOrd α] (t : Std.ExtTreeMap α β) :
    Option α → Std.ExtTreeMap α β
  | some a => t.erase a
  | none => t

/-- Puts a logical qubit on a physical one. It leaves its former place, and a former occupant of the
new place is no longer placed. -/
def assign (m : Layout) (l : LogicalQubit) (p : PhysicalQubit) : Layout where
  places := (eraseSome m.places (m.logical p)).insert l p
  occupants := (eraseSome m.occupants (m.physical l)).insert p l
  consistent := by
    intro l' p'
    have there := fun l p => (m.consistent l p).mp
    have back := fun l p => (m.consistent l p).mpr
    simp only [physical, logical]
    cases hp : m.occupants[p]? <;> cases hl : m.places[l]? <;>
      simp only [eraseSome, Std.ExtTreeMap.getElem?_insert, Std.ExtTreeMap.getElem?_erase,
        Std.LawfulEqCmp.compare_eq_iff_eq] <;> grind

/-- Inserts an entry that may be there. -/
def insertSome {α β : Type} [Ord α] [Std.TransOrd α] (t : Std.ExtTreeMap α β) (b : β) :
    Option α → Std.ExtTreeMap α β
  | some a => t.insert a b
  | none => t

/-- Sets or removes an entry. -/
def put {α β : Type} [Ord α] [Std.TransOrd α] (t : Std.ExtTreeMap α β) (a : α) :
    Option β → Std.ExtTreeMap α β
  | some b => t.insert a b
  | none => t.erase a

/-- Exchanges what two physical qubits hold. Either may be empty. -/
def swap (m : Layout) (s : Swap) : Layout where
  places := insertSome (insertSome m.places s.2 (m.logical s.1)) s.1 (m.logical s.2)
  occupants := put (put m.occupants s.2 (m.logical s.1)) s.1 (m.logical s.2)
  consistent := by
    intro l' p'
    have there := fun l p => (m.consistent l p).mp
    have back := fun l p => (m.consistent l p).mpr
    simp only [logical]
    cases h₁ : m.occupants[s.1]? <;> cases h₂ : m.occupants[s.2]? <;>
      simp only [insertSome, put, Std.ExtTreeMap.getElem?_insert, Std.ExtTreeMap.getElem?_erase,
        Std.LawfulEqCmp.compare_eq_iff_eq] <;> grind

/-- Performs swaps in order. -/
def swaps (m : Layout) (ss : List Swap) : Layout := ss.foldl swap m

end Layout

end QubitRouting
