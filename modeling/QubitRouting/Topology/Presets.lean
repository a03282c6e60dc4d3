import QubitRouting.Topology.Basic

/-!
# Usual topologies

Paths, cycles, grids, stars, complete graphs, and one heavy-hexagon lattice. Their qubits are
numbered from zero.
-/

set_option autoImplicit false

namespace QubitRouting.Topology

/-- The qubits `0, …, n - 1`. -/
def firstQubits (n : Nat) : List PhysicalQubit := (List.range n).map .mk

/-- The link between two numbered qubits. -/
def link (a b : Nat) : Link := (⟨a⟩, ⟨b⟩)

theorem mem_firstQubits {n : Nat} {q : PhysicalQubit} : q ∈ firstQubits n ↔ q.id < n := by
  obtain ⟨i⟩ := q
  simp [firstQubits]

theorem nodup_firstQubits (n : Nat) : (firstQubits n).Nodup := by
  refine List.pairwise_map.mpr (List.nodup_range.imp ?_)
  intro a b h heq
  exact h (PhysicalQubit.mk.inj heq)

theorem joins_link {n a b : Nat} (ha : a < n) (hb : b < n) (hab : a ≠ b) :
    (link a b).Joins (firstQubits n) :=
  ⟨mem_firstQubits.mpr ha, mem_firstQubits.mpr hb, fun h => hab (PhysicalQubit.mk.inj h)⟩

/-- The device with qubits `0, …, n - 1` and these links. -/
def ofNumbered (n : Nat) (links : List Link) (joins : ∀ l ∈ links, l.Joins (firstQubits n)) :
    Topology :=
  ofLinks (firstQubits n) links (nodup_firstQubits n) joins

/-! ## Paths and cycles -/

/-- The links of a path through `0, …, n - 1`. -/
def pathLinks (n : Nat) : List Link := (List.range (n - 1)).map fun i => link i (i + 1)

theorem joins_pathLinks (n : Nat) : ∀ l ∈ pathLinks n, l.Joins (firstQubits n) := by
  intro l hl
  obtain ⟨i, hi, rfl⟩ := List.mem_map.mp hl
  have := List.mem_range.mp hi
  exact joins_link (by omega) (by omega) (by omega)

/-- A path. -/
def linear (n : Nat) : Topology := ofNumbered n (pathLinks n) (joins_pathLinks n)

/-- The links of a cycle. Up to two qubits it is a path. -/
def ringLinks (n : Nat) : List Link := pathLinks n ++ if 2 < n then [link (n - 1) 0] else []

theorem joins_ringLinks (n : Nat) : ∀ l ∈ ringLinks n, l.Joins (firstQubits n) := by
  intro l hl
  rcases List.mem_append.mp hl with hl | hl
  · exact joins_pathLinks n l hl
  · split at hl
    · obtain rfl := List.mem_singleton.mp hl
      exact joins_link (by omega) (by omega) (by omega)
    · simp at hl

/-- A cycle. -/
def ring (n : Nat) : Topology := ofNumbered n (ringLinks n) (joins_ringLinks n)

/-! ## Grids -/

/-- The links of the cell in row `r` and column `c`: to the right, then down. -/
def cellLinks (rows cols r c : Nat) : List Link :=
  (if c + 1 < cols then [link (r * cols + c) (r * cols + c + 1)] else []) ++
    (if r + 1 < rows then [link (r * cols + c) (r * cols + c + cols)] else [])

/-- The links of a grid, row by row. -/
def gridLinks (rows cols : Nat) : List Link :=
  (List.range rows).flatMap fun r => (List.range cols).flatMap (cellLinks rows cols r)

theorem joins_gridLinks (rows cols : Nat) :
    ∀ l ∈ gridLinks rows cols, l.Joins (firstQubits (rows * cols)) := by
  intro l hl
  obtain ⟨r, hr, hl⟩ := List.mem_flatMap.mp hl
  obtain ⟨c, hc, hl⟩ := List.mem_flatMap.mp hl
  have hc := List.mem_range.mp hc
  have hr := List.mem_range.mp hr
  have row : (r + 1) * cols ≤ rows * cols := Nat.mul_le_mul_right _ hr
  rw [Nat.succ_mul] at row
  rcases List.mem_append.mp hl with hl | hl <;> split at hl
  · obtain rfl := List.mem_singleton.mp hl
    exact joins_link (by omega) (by omega) (by omega)
  · simp at hl
  · rename_i below
    obtain rfl := List.mem_singleton.mp hl
    have next : (r + 2) * cols ≤ rows * cols := Nat.mul_le_mul_right _ below
    rw [Nat.add_mul] at next
    exact joins_link (by omega) (by omega) (by omega)
  · simp at hl

/-- A grid, numbered row by row. -/
def grid (rows cols : Nat) : Topology :=
  ofNumbered (rows * cols) (gridLinks rows cols) (joins_gridLinks rows cols)

/-! ## Stars and complete graphs -/

/-- The links of a star. -/
def starLinks (n : Nat) : List Link := (List.range (n - 1)).map fun i => link 0 (i + 1)

theorem joins_starLinks (n : Nat) : ∀ l ∈ starLinks n, l.Joins (firstQubits n) := by
  intro l hl
  obtain ⟨i, hi, rfl⟩ := List.mem_map.mp hl
  have := List.mem_range.mp hi
  exact joins_link (by omega) (by omega) (by omega)

/-- Qubit `0` linked to every other one. -/
def star (n : Nat) : Topology := ofNumbered n (starLinks n) (joins_starLinks n)

/-- All links, those of the lowest numbered qubit first. -/
def fullLinks (n : Nat) : List Link :=
  (List.range n).flatMap fun i => (List.range (n - (i + 1))).map fun d => link i (i + 1 + d)

theorem joins_fullLinks (n : Nat) : ∀ l ∈ fullLinks n, l.Joins (firstQubits n) := by
  intro l hl
  obtain ⟨i, hi, hl⟩ := List.mem_flatMap.mp hl
  obtain ⟨d, hd, rfl⟩ := List.mem_map.mp hl
  have := List.mem_range.mp hi
  have := List.mem_range.mp hd
  exact joins_link (by omega) (by omega) (by omega)

/-- All qubits linked to each other. -/
def full (n : Nat) : Topology := ofNumbered n (fullLinks n) (joins_fullLinks n)

/-! ## The heavy-hexagon lattice -/

/-- Five rows of qubits, each given by its first inner qubit and the number of its inner qubits, and
the links through the qubits between a row and the next one. -/
def heavyHexRows : List (Nat × Nat × List (Nat × Nat)) :=
  [(1, 8, [(0, 10), (10, 13), (4, 11), (11, 17), (8, 12), (12, 21)]),
    (14, 9, [(15, 24), (24, 29), (19, 25), (25, 33), (23, 26), (26, 37)]),
    (28, 9, [(27, 38), (38, 41), (31, 39), (39, 45), (35, 40), (40, 49)]),
    (42, 9, [(43, 52), (52, 56), (47, 53), (53, 60), (51, 54), (54, 64)]),
    (56, 8, [])]

/-- The links of the lattice: in each row those of the inner qubits to the left and to the right,
then those to the next row. -/
def heavyHexLinks : List Link :=
  heavyHexRows.flatMap fun (first, count, bridges) =>
    ((List.range count).flatMap fun i =>
      [link (first + i) (first + i - 1), link (first + i) (first + i + 1)]) ++
    bridges.map fun (a, b) => link a b

theorem joins_heavyHexLinks : ∀ l ∈ heavyHexLinks, l.Joins (firstQubits 65) := by
  have h : ∀ l ∈ heavyHexLinks, l.1.id < 65 ∧ l.2.id < 65 ∧ l.1 ≠ l.2 := by decide
  intro l hl
  obtain ⟨h₁, h₂, h₃⟩ := h l hl
  exact ⟨mem_firstQubits.mpr h₁, mem_firstQubits.mpr h₂, h₃⟩

/-- The heavy-hexagon lattice of 65 qubits. -/
def heavyHex65 : Topology := ofNumbered 65 heavyHexLinks joins_heavyHexLinks

end QubitRouting.Topology
