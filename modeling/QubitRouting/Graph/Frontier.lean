import Std.Data.TreeSet

/-!
# How much a node sees

Starting at a node, a walk visits node after node; it notices the neighbours of each node it visits
and goes on to the first noticed node that is next in line. Its *reach* is the number of nodes it
has noticed after a given number of visits. A node may stand in line more than once, and each of its
turns counts as a visit.
-/

set_option autoImplicit false

namespace QubitRouting

/-- A line of waiting elements. New ones are kept in reverse, so that joining takes constant
time. -/
structure Line (α : Type) where
  front : List α
  joined : List α
deriving Repr

namespace Line

variable {α : Type}

def empty : Line α := ⟨[], []⟩

/-- The elements in the order in which they will leave. -/
def toList (l : Line α) : List α := l.front ++ l.joined.reverse

/-- Adds an element at the end. -/
def push (l : Line α) (a : α) : Line α := ⟨l.front, a :: l.joined⟩

/-- Takes the first element. -/
def pop? (l : Line α) : Option (α × Line α) :=
  match l.front with
  | a :: rest => some (a, ⟨rest, l.joined⟩)
  | [] =>
    match l.joined.reverse with
    | a :: rest => some (a, ⟨rest, []⟩)
    | [] => none

@[simp] theorem toList_empty : (empty : Line α).toList = [] := rfl

@[simp] theorem toList_push (l : Line α) (a : α) : (l.push a).toList = l.toList ++ [a] := by
  simp [push, toList]

theorem pop?_eq_none_iff {l : Line α} : l.pop? = none ↔ l.toList = [] := by
  obtain ⟨front, joined⟩ := l
  cases front with
  | cons a rest => simp [pop?, toList]
  | nil =>
    simp only [pop?, toList, List.nil_append]
    cases joined.reverse <;> simp

theorem toList_of_pop?_eq_some {l l' : Line α} {a : α} (h : l.pop? = some (a, l')) :
    l.toList = a :: l'.toList := by
  obtain ⟨front, joined⟩ := l
  cases front with
  | cons b rest =>
    simp only [pop?, Option.some.injEq, Prod.mk.injEq] at h
    obtain ⟨rfl, rfl⟩ := h
    rfl
  | nil =>
    simp only [pop?] at h
    cases hj : joined.reverse with
    | nil => simp [hj] at h
    | cons b rest =>
      simp only [hj, Option.some.injEq, Prod.mk.injEq] at h
      obtain ⟨rfl, rfl⟩ := h
      simp [toList, hj]

end Line

/-- A walk under way. -/
structure Walk (α : Type) [Ord α] where
  visited : Std.TreeSet α
  noticed : Std.TreeSet α
  waiting : Line α

namespace Walk

variable {α : Type} [Ord α]

def start : Walk α := ⟨.empty, .empty, .empty⟩

/-- Visits a node and notices its neighbours. Those not yet visited join the line. -/
def visit (neighbors : α → List α) (w : Walk α) (a : α) : Walk α :=
  let visited := w.visited.insert a
  (neighbors a).foldl
    (fun w b =>
      { w with
        noticed := if w.noticed.contains b then w.noticed else w.noticed.insert b
        waiting := if visited.contains b then w.waiting else w.waiting.push b })
    { w with visited }

/-- The number of nodes noticed after at most `budget` visits, the first of them to `a`. -/
def reachFrom (neighbors : α → List α) : Nat → Walk α → α → Nat
  | 0, w, _ => w.noticed.size
  | budget + 1, w, a =>
    let w := w.visit neighbors a
    match w.waiting.pop? with
    | none => w.noticed.size
    | some (next, waiting) => reachFrom neighbors budget { w with waiting } next

/-- The reach of a node. -/
def reach (neighbors : α → List α) (budget : Nat) (a : α) : Nat :=
  reachFrom neighbors budget start a

end Walk

end QubitRouting
