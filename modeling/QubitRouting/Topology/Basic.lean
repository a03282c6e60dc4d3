import QubitRouting.Fault
import QubitRouting.Graph.Best
import QubitRouting.Graph.Frontier
import QubitRouting.Graph.Traversal
import Std.Data.TreeMap

/-!
# Device topologies

A topology lists the physical qubits of a device and the links between them. A gate on two qubits
can be run only across a link. Two things are computed once and kept: the neighbours of each qubit,
in the order of the links, and the *center*, the first qubit that reaches furthest.

`Topology.ofLinks` is the only way in which topologies are made; that the kept data belong to the
links is part of the type.
-/

set_option autoImplicit false

namespace QubitRouting

/-- An undirected link between two physical qubits. -/
abbrev Link := PhysicalQubit × PhysicalQubit

namespace Link

variable {l : Link} {a b q r : PhysicalQubit}

/-- The qubits that a link leads to from `q`. -/
def ends (q : PhysicalQubit) (l : Link) : List PhysicalQubit :=
  (if l.1 = q then [l.2] else []) ++ (if l.2 = q then [l.1] else [])

theorem mem_ends : r ∈ ends q l ↔ l = (q, r) ∨ l = (r, q) := by
  obtain ⟨x, y⟩ := l
  simp only [ends, List.mem_append, Prod.mk.injEq]
  by_cases hx : x = q
  · by_cases hy : y = q
    · simp [hx, hy, eq_comm]
    · simp [hx, hy, eq_comm]
  · by_cases hy : y = q
    · simp [hx, hy, eq_comm]
    · simp [hx, hy]

/-- The qubits linked to `q`, in the order of the links. -/
def neighbors (links : List Link) (q : PhysicalQubit) : List PhysicalQubit :=
  links.flatMap (ends q)

/-- A table of neighbours. -/
abbrev Table := Std.TreeMap PhysicalQubit (List PhysicalQubit)

namespace Table

/-- Puts `b` in front of the neighbours of `a`. -/
def cons (t : Table) (a b : PhysicalQubit) : Table := t.insert a (b :: t.getD a [])

/-- The table of a list of links. -/
def ofLinks (links : List Link) : Table :=
  links.foldr (fun l t => (t.cons l.2 l.1).cons l.1 l.2) ∅

theorem getD_cons (t : Table) (a b q : PhysicalQubit) :
    (t.cons a b).getD q [] = (if a = q then [b] else []) ++ t.getD q [] := by
  by_cases h : a = q
  · subst h
    simp [cons]
  · simp [cons, Std.TreeMap.getD_insert, h]

theorem getD_ofLinks (links : List Link) (q : PhysicalQubit) :
    (ofLinks links).getD q [] = neighbors links q := by
  induction links with
  | nil => simp [ofLinks, neighbors]
  | cons l links ih =>
    rw [ofLinks, List.foldr_cons, ← ofLinks, getD_cons, getD_cons, ih]
    simp [neighbors, ends]

end Table

/-- The links, leaving out each one between qubits that are linked already, be it in `linked` or by
an earlier link. -/
def distinctFrom (linked : Table) : List Link → List Link
  | [] => []
  | l :: links =>
    if (linked.getD l.1 []).contains l.2 then distinctFrom linked links
    else l :: distinctFrom ((linked.cons l.2 l.1).cons l.1 l.2) links

/-- The links, each pair of qubits once and where it first occurs. -/
def distinct (links : List Link) : List Link := distinctFrom ∅ links

theorem distinctFrom_sublist (linked : Table) (links : List Link) :
    (distinctFrom linked links).Sublist links := by
  induction links generalizing linked with
  | nil => exact .slnil
  | cons l links ih =>
    rw [distinctFrom]
    split
    · exact (ih _).cons l
    · exact (ih _).cons_cons l

/-! ### Each pair once -/

/-- Links that go both ways. -/
def Table.Symmetric (t : Table) : Prop := ∀ a b, b ∈ t.getD a [] → a ∈ t.getD b []

theorem Table.mem_getD_cons_cons {t : Table} :
    b ∈ ((t.cons l.2 l.1).cons l.1 l.2).getD a [] ↔ b ∈ t.getD a [] ∨ l = (a, b) ∨ l = (b, a) := by
  rw [getD_cons, getD_cons, ← List.append_assoc, List.mem_append, or_comm]
  exact or_congr_right mem_ends

theorem Table.Symmetric.cons_cons {t : Table} (h : t.Symmetric) (l : Link) :
    Table.Symmetric ((t.cons l.2 l.1).cons l.1 l.2) := by
  intro a b hb
  rw [mem_getD_cons_cons] at hb ⊢
  exact hb.imp (h a b) Or.symm

/-- No two links join the same qubits. -/
def Once (links : List Link) : Prop := links.Pairwise fun l l' => l ≠ l' ∧ l ≠ l'.swap

theorem once_distinctFrom {linked : Table} (h : linked.Symmetric) (links : List Link) :
    Once (distinctFrom linked links) ∧
      ∀ l ∈ distinctFrom linked links, l.2 ∉ linked.getD l.1 [] := by
  induction links generalizing linked with
  | nil => exact ⟨List.Pairwise.nil, fun l hl => absurd hl List.not_mem_nil⟩
  | cons l links ih =>
    rw [distinctFrom]
    split
    · exact ih h
    · rename_i hnew
      obtain ⟨honce, hfresh⟩ := ih (h.cons_cons l)
      have hlater : ∀ l' ∈ distinctFrom ((linked.cons l.2 l.1).cons l.1 l.2) links,
          l'.2 ∉ linked.getD l'.1 [] ∧ l ≠ l' ∧ l ≠ l'.swap := by
        intro l' hl'
        have hunlinked := hfresh l' hl'
        rw [Table.mem_getD_cons_cons, not_or, not_or] at hunlinked
        exact hunlinked
      refine ⟨List.pairwise_cons.mpr ⟨fun l' hl' => (hlater l' hl').2, honce⟩, ?_⟩
      intro l' hl'
      rcases List.mem_cons.mp hl' with rfl | hl'
      · exact fun hmem => hnew (List.contains_iff_mem.mpr hmem)
      · exact (hlater l' hl').1

theorem symmetric_empty : Table.Symmetric ∅ := by
  intro a b hb
  simp at hb

theorem once_distinct (links : List Link) : Once (distinct links) :=
  (once_distinctFrom symmetric_empty links).1

/-- A link of a device joins two different qubits of it. -/
def Joins (qubits : List PhysicalQubit) (l : Link) : Prop :=
  l.1 ∈ qubits ∧ l.2 ∈ qubits ∧ l.1 ≠ l.2

theorem mem_of_mem_neighbors {qubits : List PhysicalQubit} {links : List Link}
    (h : ∀ l ∈ links, Joins qubits l) {q r : PhysicalQubit} (hr : r ∈ neighbors links q) :
    r ∈ qubits := by
  obtain ⟨l, hl, hr⟩ := List.mem_flatMap.mp hr
  obtain ⟨h₁, h₂, _⟩ := h l hl
  rcases List.mem_append.mp hr with hr | hr <;> split at hr <;> simp_all

end Link

/-- The first qubit that reaches furthest when it may visit as many qubits as there are. -/
def centerOf (neighbors : PhysicalQubit → List PhysicalQubit) (qubits : List PhysicalQubit) :
    Option PhysicalQubit :=
  (firstLargest qubits.length (Walk.reach neighbors qubits.length) qubits).map (·.1)

/-- A device. -/
structure Topology where
  qubits : List PhysicalQubit
  links : List Link
  neighbors : PhysicalQubit → List PhysicalQubit
  center? : Option PhysicalQubit
  nodup : qubits.Nodup
  joins : ∀ l ∈ links, l.Joins qubits
  once : Link.Once links
  neighbors_eq : ∀ q, neighbors q = Link.neighbors links q
  center?_eq : center? = centerOf neighbors qubits

namespace Topology

/-- The device with these qubits and links. Repeated links count once. -/
def ofLinks (qubits : List PhysicalQubit) (links : List Link) (nodup : qubits.Nodup)
    (joins : ∀ l ∈ links, l.Joins qubits) : Topology :=
  let links' := Link.distinct links
  let table := Link.Table.ofLinks links'
  let neighbors := fun q => table.getD q []
  { qubits
    links := links'
    neighbors
    center? := centerOf neighbors qubits
    nodup
    joins := fun l hl => joins l ((Link.distinctFrom_sublist ∅ links).subset hl)
    once := Link.once_distinct links
    neighbors_eq := Link.Table.getD_ofLinks links'
    center?_eq := rfl }

/-- The number of qubits. -/
def size (t : Topology) : Nat := t.qubits.length

/-- The numbers of the qubits have 32 bits. -/
def InRange (t : Topology) : Prop := ∀ q ∈ t.qubits, q.id < UInt32.size

instance (t : Topology) : Decidable t.InRange := inferInstanceAs (Decidable (∀ q ∈ t.qubits, _))

/-- Whether a qubit belongs to the device. -/
def contains (t : Topology) (q : PhysicalQubit) : Bool := t.qubits.contains q

/-- Whether two qubits are linked. -/
def adjacent (t : Topology) (a b : PhysicalQubit) : Bool := (t.neighbors a).contains b

/-- The device as a graph. -/
def graph (t : Topology) : FiniteGraph PhysicalQubit where
  neighbors := t.neighbors
  nodes := t.qubits
  neighbors_mem a b hb := by
    rw [t.neighbors_eq] at hb
    exact Link.mem_of_mem_neighbors t.joins hb

/-- The center of a device that has qubits. -/
def center (t : Topology) : Except Fault PhysicalQubit :=
  match t.center? with
  | some q => .ok q
  | none => .error .emptyTopology

/-- A shortest path between two qubits. -/
def shortestPath (t : Topology) (source target : PhysicalQubit) : Option (List PhysicalQubit) :=
  t.graph.shortestPath source target

/-- The number of links on a shortest path. -/
def distance (t : Topology) (source target : PhysicalQubit) : Option Nat :=
  t.graph.distance source target

/-! ## Starting positions -/

/-- How far a qubit reaches in `budget` visits. -/
def reach (t : Topology) (budget : Nat) (q : PhysicalQubit) : Nat :=
  Walk.reach t.neighbors budget q

/-- Moves to the neighbour that reaches furthest, the first of them, for as long as one reaches
further than the present qubit. -/
def climb (t : Topology) (budget : Nat) : Nat → PhysicalQubit × Nat → PhysicalQubit
  | 0, here => here.1
  | fuel + 1, here =>
    let best := (t.neighbors here.1).foldl
      (fun chosen q => pickBetter (fun a b => b < a) chosen (q, t.reach budget q)) here
    if here.2 < best.2 then t.climb budget fuel best else here.1

/-- Where to begin placing `count` qubits: uphill from the center. The reach grows with every move
and never exceeds the number of qubits, which bounds the number of moves. -/
def startingPosition (t : Topology) (count : Nat) : Except Fault PhysicalQubit := do
  let center ← t.center
  return t.climb count (t.size + 1) (center, t.reach count center)

end Topology

end QubitRouting
