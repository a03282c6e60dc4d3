import QubitRouting.Proofs.Topology.Links

/-!
# The usual topologies are devices

The families of numbered devices are made without checks. Here is what their lists of links hold,
qubit by qubit, and that they would pass the checks: in all but the lattice every qubit other than
the first is linked to one with a smaller number, which connects the device (`hangs_numbered`).
-/

set_option autoImplicit false

namespace QubitRouting.Topology

variable {n a b : Nat}

theorem link_inj {a b c d : Nat} : link a b = link c d ↔ a = c ∧ b = d := by
  simp [link]

/-- Qubits that are each linked to a smaller one hang together. -/
theorem hangs_numbered {links : List Link}
    (h : ∀ i < n, i ≠ 0 → ∃ j < i, link i j ∈ links ∨ link j i ∈ links) :
    Hangs (firstQubits n) links := by
  let Linked (x y : PhysicalQubit) : Prop := (x, y) ∈ links ∨ (y, x) ∈ links
  have hsymm : Std.Symm Linked := ⟨fun _ _ => Or.symm⟩
  -- from every qubit a way leads down to the first one
  have hdown : ∀ i < n, Relation.ReflTransGen Linked ⟨i⟩ ⟨0⟩ := by
    intro i
    induction i using Nat.strong_induction_on with
    | _ i ih =>
      intro hi
      by_cases hzero : i = 0
      · rw [hzero]
      · obtain ⟨j, hj, hlinked⟩ := h i hi hzero
        exact (ih j hj (Nat.lt_trans hj hi)).head hlinked
  rintro ⟨a⟩ ha ⟨b⟩ hb
  have hup : Relation.ReflTransGen Linked ⟨0⟩ ⟨b⟩ :=
    Relation.ReflTransGen.stdSymm.symm _ _ (hdown b (mem_firstQubits.mp hb))
  exact (hdown a (mem_firstQubits.mp ha)).trans hup

/-- A numbered device whose qubits hang together passes the checks. -/
theorem ofEdges_ofNumbered {links : List Link} (joins : ∀ l ∈ links, l.Joins (firstQubits n))
    (h : Hangs (firstQubits n) links) :
    ofEdges (firstQubits n) links = .ok (ofNumbered n links joins) :=
  ofEdges_eq_ok_iff.mpr ⟨nodup_firstQubits n, joins, h, rfl⟩

/-! ## Paths and cycles -/

theorem mem_pathLinks : link a b ∈ pathLinks n ↔ b = a + 1 ∧ b < n := by
  simp only [pathLinks, List.mem_map, List.mem_range, link_inj]
  constructor
  · rintro ⟨i, hi, rfl, rfl⟩
    exact ⟨rfl, by omega⟩
  · rintro ⟨rfl, hlt⟩
    exact ⟨a, by omega, rfl, rfl⟩

theorem hangs_pathLinks (n : Nat) : Hangs (firstQubits n) (pathLinks n) := by
  apply hangs_numbered
  intro i hi hzero
  exact ⟨i - 1, by omega, Or.inr (mem_pathLinks.mpr ⟨by omega, hi⟩)⟩

theorem mem_ringLinks :
    link a b ∈ ringLinks n ↔ (b = a + 1 ∧ b < n) ∨ (2 < n ∧ a + 1 = n ∧ b = 0) := by
  rw [ringLinks, List.mem_append, mem_pathLinks]
  apply or_congr_right
  split
  · rw [List.mem_singleton, link_inj]
    omega
  · simp only [List.not_mem_nil, false_iff]
    omega

theorem hangs_ringLinks (n : Nat) : Hangs (firstQubits n) (ringLinks n) := by
  apply hangs_numbered
  intro i hi hzero
  exact ⟨i - 1, by omega, Or.inr (mem_ringLinks.mpr (Or.inl ⟨by omega, hi⟩))⟩

/-! ## Grids -/

theorem mem_gridLinks {rows cols : Nat} :
    link a b ∈ gridLinks rows cols ↔ ∃ r c, r < rows ∧ c < cols ∧ a = r * cols + c ∧
      (c + 1 < cols ∧ b = r * cols + (c + 1) ∨ r + 1 < rows ∧ b = (r + 1) * cols + c) := by
  have hdown : ∀ r c, (r + 1) * cols + c = r * cols + c + cols := by
    intro r c
    rw [Nat.add_mul, Nat.one_mul]
    omega
  have hcell : ∀ r c, link a b ∈ cellLinks rows cols r c ↔ a = r * cols + c ∧
      (c + 1 < cols ∧ b = r * cols + (c + 1) ∨ r + 1 < rows ∧ b = (r + 1) * cols + c) := by
    intro r c
    have hright :
        link a b ∈ (if c + 1 < cols then [link (r * cols + c) (r * cols + c + 1)] else []) ↔
        a = r * cols + c ∧ c + 1 < cols ∧ b = r * cols + (c + 1) := by
      split
      · rename_i hc
        rw [List.mem_singleton, link_inj, and_iff_right hc]
        rfl
      · rename_i hc
        simp [hc]
    have hbelow :
        link a b ∈ (if r + 1 < rows then [link (r * cols + c) (r * cols + c + cols)] else []) ↔
        a = r * cols + c ∧ r + 1 < rows ∧ b = (r + 1) * cols + c := by
      rw [hdown]
      split
      · rename_i hr
        rw [List.mem_singleton, link_inj, and_iff_right hr]
      · rename_i hr
        simp [hr]
    rw [cellLinks, List.mem_append, hright, hbelow, and_or_left]
  simp only [gridLinks, List.mem_flatMap, List.mem_range, hcell]
  constructor
  · rintro ⟨r, hr, c, hc, h⟩
    exact ⟨r, c, hr, hc, h⟩
  · rintro ⟨r, c, hr, hc, h⟩
    exact ⟨r, hr, c, hc, h⟩

theorem hangs_gridLinks (rows cols : Nat) :
    Hangs (firstQubits (rows * cols)) (gridLinks rows cols) := by
  apply hangs_numbered
  intro i hi hzero
  have hcols : 0 < cols := Nat.pos_of_mul_pos_left (Nat.lt_of_le_of_lt (Nat.zero_le i) hi)
  have hc := Nat.mod_lt i hcols
  have hr : i / cols < rows := Nat.div_lt_of_lt_mul (Nat.mul_comm rows cols ▸ hi)
  have hi' : i / cols * cols + i % cols = i := by
    rw [Nat.mul_comm]
    exact Nat.div_add_mod i cols
  by_cases hcol : i % cols = 0
  -- in the first column the cell above is smaller, elsewhere the cell to the left
  · obtain ⟨r, hr'⟩ : ∃ r, i / cols = r + 1 := by
      apply Nat.exists_eq_add_one_of_ne_zero
      intro hrow
      rw [hrow, hcol] at hi'
      omega
    rw [hr'] at hr
    rw [hr', hcol] at hi'
    refine ⟨r * cols, ?_,
      Or.inr (mem_gridLinks.mpr ⟨r, 0, by omega, hcols, rfl, Or.inr ⟨hr, hi'.symm⟩⟩)⟩
    rw [Nat.add_mul] at hi'
    omega
  · refine ⟨i - 1, by omega, Or.inr (mem_gridLinks.mpr
      ⟨i / cols, i % cols - 1, hr, by omega, by omega, Or.inl ⟨by omega, by omega⟩⟩)⟩

/-! ## Stars and complete graphs -/

theorem mem_starLinks : link a b ∈ starLinks n ↔ a = 0 ∧ 0 < b ∧ b < n := by
  simp only [starLinks, List.mem_map, List.mem_range, link_inj]
  constructor
  · rintro ⟨i, hi, rfl, rfl⟩
    exact ⟨rfl, by omega, by omega⟩
  · rintro ⟨rfl, hpos, hlt⟩
    exact ⟨b - 1, by omega, rfl, by omega⟩

theorem hangs_starLinks (n : Nat) : Hangs (firstQubits n) (starLinks n) := by
  apply hangs_numbered
  intro i hi hzero
  exact ⟨0, by omega, Or.inr (mem_starLinks.mpr ⟨rfl, by omega, hi⟩)⟩

theorem mem_fullLinks : link a b ∈ fullLinks n ↔ a < b ∧ b < n := by
  simp only [fullLinks, List.mem_flatMap, List.mem_map, List.mem_range, link_inj]
  constructor
  · rintro ⟨i, hi, d, hd, rfl, rfl⟩
    exact ⟨by omega, by omega⟩
  · rintro ⟨hab, hlt⟩
    exact ⟨a, by omega, b - (a + 1), by omega, rfl, by omega⟩

theorem hangs_fullLinks (n : Nat) : Hangs (firstQubits n) (fullLinks n) := by
  apply hangs_numbered
  intro i hi hzero
  exact ⟨0, by omega, Or.inr (mem_fullLinks.mpr ⟨by omega, hi⟩)⟩

/-! ## The heavy-hexagon lattice -/

/-- Qubits are linked in the lattice if they are next to each other in a row, which has one more
qubit at either end, or if they are joined by a bridge. -/
def HeavyHexLinked (a b : Nat) : Prop :=
  ∃ row ∈ heavyHexRows, (b = a + 1 ∧ row.1 ≤ b ∧ a < row.1 + row.2.1) ∨ (a, b) ∈ row.2.2

instance (a b : Nat) : Decidable (HeavyHexLinked a b) := by
  unfold HeavyHexLinked
  infer_instance

theorem mem_heavyHexLinks :
    link a b ∈ heavyHexLinks ∨ link b a ∈ heavyHexLinks ↔
      HeavyHexLinked a b ∨ HeavyHexLinked b a := by
  have hlinked :
      ∀ l ∈ heavyHexLinks, HeavyHexLinked l.1.id l.2.id ∨ HeavyHexLinked l.2.id l.1.id := by
    decide +kernel
  have hrows : ∀ row ∈ heavyHexRows, ∀ i ∈ List.range 65, row.1 ≤ i + 1 → i < row.1 + row.2.1 →
      link i (i + 1) ∈ heavyHexLinks ∨ link (i + 1) i ∈ heavyHexLinks := by
    decide +kernel
  have hbridges : ∀ row ∈ heavyHexRows, ∀ c ∈ row.2.2, link c.1 c.2 ∈ heavyHexLinks := by
    decide +kernel
  have hsize : ∀ row ∈ heavyHexRows, row.1 + row.2.1 ≤ 65 := by
    decide +kernel
  have hmem :
      ∀ {a b : Nat}, HeavyHexLinked a b → link a b ∈ heavyHexLinks ∨ link b a ∈ heavyHexLinks := by
    rintro a b ⟨row, hrow, ⟨rfl, hfirst, hlast⟩ | hbridge⟩
    · have hlt := hsize row hrow
      exact hrows row hrow a (List.mem_range.mpr (by omega)) hfirst hlast
    · exact Or.inl (hbridges row hrow (a, b) hbridge)
  constructor
  · rintro (h | h)
    · exact hlinked _ h
    · exact (hlinked _ h).symm
  · rintro (h | h)
    · exact hmem h
    · exact (hmem h).symm

/-- The numbers of the lattice do not help here: counting its parts shows that it is connected. -/
theorem hangs_heavyHexLinks : Hangs (firstQubits 65) heavyHexLinks := by
  apply (partCount_le_one_iff joins_heavyHexLinks).mp
  decide +kernel

end QubitRouting.Topology
