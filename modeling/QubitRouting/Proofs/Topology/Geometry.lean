import Mathlib.Data.Nat.Dist
import QubitRouting.Proofs.Topology.Families

/-!
# Distances on the usual topologies

On a path, a cycle, a grid, a star and a complete graph, how far apart two qubits are can be told
from their numbers alone. The search that finds distances is not looked at again. A function of the
nodes is the distance from `a` as soon as it is zero there, changes by one at most across every
link, and can be made smaller across some link from every other node (`Levels`): the second says
that no way is shorter than the function, and the third one leads back to `a` along a way that is as
short.

What is left for each family is arithmetic with its links. It is delicate where numbers that follow
each other are not linked, at the ends of the rows of a grid, and where linked numbers do not follow
each other, at the closing link of a cycle, which is missing up to two qubits.
-/

set_option autoImplicit false

namespace QubitRouting

/-! ## Levels -/

namespace FiniteGraph

variable {α : Type} {g : FiniteGraph α} {a x : α} {d : α → Nat}

/-- The function sorts the nodes by levels around `a`. -/
structure Levels (g : FiniteGraph α) (a : α) (d : α → Nat) : Prop where
  zero : d a = 0
  /-- A link leads up by one level at most. -/
  step : ∀ x y, g.Step x y → d y ≤ d x + 1
  /-- To every other node a link leads from a lower level. -/
  lower : ∀ x ∈ g.nodes, x ≠ a → ∃ y ∈ g.nodes, g.Step y x ∧ d y < d x

theorem Levels.le (h : g.Levels a d) {n : Nat} (hx : g.LeadsIn a n x) : d x ≤ n := by
  induction hx with
  | refl => rw [h.zero]
  | tail _ hstep ih => exact Nat.le_trans (h.step _ _ hstep) (Nat.succ_le_succ ih)

theorem Levels.leadsIn [DecidableEq α] (h : g.Levels a d) (hx : x ∈ g.nodes) :
    g.LeadsIn a (d x) x := by
  -- by the level: the links from lower ones lead back to `a`
  induction hn : d x using Nat.strong_induction_on generalizing x with
  | _ n ih =>
    by_cases hxa : x = a
    · rw [hxa, h.zero] at hn
      rw [hxa, ← hn]
      exact .refl
    · obtain ⟨y, hy, hstep, hlt⟩ := h.lower x hx hxa
      have hle := h.step y x hstep
      have hway : g.LeadsIn a (d y + 1) x := .tail (ih (d y) (hn ▸ hlt) hy rfl) hstep
      have heq : d y + 1 = n := by omega
      rwa [heq] at hway

/-- **Levels are distances.** -/
theorem Levels.distance_eq [DecidableEq α] [Ord α] [Std.TransOrd α] [Std.LawfulEqOrd α]
    (h : g.Levels a d) (hx : x ∈ g.nodes) : g.distance a x = some (d x) :=
  distance_eq_some_iff.mpr ⟨h.leadsIn hx, fun _ hn => h.le hn⟩

end FiniteGraph

namespace Topology

variable {n a b : Nat}

/-- On a numbered device it is enough to look at the numbers. -/
theorem distance_ofNumbered {links : List Link} {joins : ∀ l ∈ links, l.Joins (firstQubits n)}
    {d : Nat → Nat}
    (hzero : d a = 0) (hlink : ∀ x y, link x y ∈ links → d x ≤ d y + 1 ∧ d y ≤ d x + 1)
    (hlower : ∀ x < n, x ≠ a → ∃ y, (link x y ∈ links ∨ link y x ∈ links) ∧ d y < d x)
    (hb : b < n) :
    (ofNumbered n links joins).distance ⟨a⟩ ⟨b⟩ = some (d b) := by
  have hstep : ∀ x y, (ofNumbered n links joins).graph.Step ⟨x⟩ ⟨y⟩ ↔
      link x y ∈ links ∨ link y x ∈ links :=
    fun x y => step_iff.trans adjacent_ofLinks
  have hlevels : (ofNumbered n links joins).graph.Levels ⟨a⟩ (fun q => d q.id) := by
    refine ⟨hzero, ?_, ?_⟩
    · rintro ⟨x⟩ ⟨y⟩ hxy
      rcases (hstep x y).mp hxy with hmem | hmem
      · exact (hlink x y hmem).2
      · exact (hlink y x hmem).1
    · rintro ⟨x⟩ hx hne
      obtain ⟨y, hmem, hlt⟩ := hlower x (mem_firstQubits.mp hx) fun h => hne (congrArg _ h)
      have hyx := (hstep y x).mpr hmem.symm
      exact ⟨⟨y⟩, (joins_of_adjacent (step_iff.mp hyx)).1, hyx, hlt⟩
  exact hlevels.distance_eq (mem_firstQubits.mpr hb)

/-! ## Paths and cycles -/

theorem distance_linear (ha : a < n) (hb : b < n) :
    (linear n).distance ⟨a⟩ ⟨b⟩ = some (Nat.dist a b) := by
  apply distance_ofNumbered (Nat.dist_self a) _ _ hb
  · intro x y hxy
    obtain ⟨rfl, -⟩ := mem_pathLinks.mp hxy
    simp only [Nat.dist]
    omega
  · intro x hx hne
    simp only [mem_pathLinks, Nat.dist]
    by_cases hlt : x < a
    · exact ⟨x + 1, by omega, by omega⟩
    · exact ⟨x - 1, by omega, by omega⟩

theorem add_dist (x y : Nat) : x + Nat.dist x y = y ∨ y + Nat.dist x y = x := by
  simp only [Nat.dist]
  omega

/-- From a number, one of its two neighbours on the cycle is on the shorter arc. -/
theorem distance_ring (ha : a < n) (hb : b < n) :
    (ring n).distance ⟨a⟩ ⟨b⟩ = some (min (Nat.dist a b) (n - Nat.dist a b)) := by
  apply distance_ofNumbered (d := fun x => min (Nat.dist a x) (n - Nat.dist a x)) (by simp) _ _ hb
  · intro x y hxy
    have hx := add_dist a x
    have hy := add_dist a y
    rcases mem_ringLinks.mp hxy with ⟨rfl, hlt⟩ | ⟨-, hlast, rfl⟩
    · have hnear :
          Nat.dist a (x + 1) ≤ Nat.dist a x + 1 ∧ Nat.dist a x ≤ Nat.dist a (x + 1) + 1 := by omega
      clear hx hy
      omega
    · -- the two ends are as far from `a` as the whole path is long
      have hends : Nat.dist a x + Nat.dist a 0 + 1 = n := by omega
      clear hx hy
      omega
  · intro x hx hne
    simp only [mem_ringLinks]
    have hxa := add_dist a x
    by_cases hup : x < a ↔ 2 * Nat.dist a x ≤ n
    · by_cases hlast : x + 1 < n
      · have hnext := add_dist a (x + 1)
        exact ⟨x + 1, .inl (.inl ⟨rfl, hlast⟩), by omega⟩
      · have hfirst := add_dist a 0
        exact ⟨0, by omega, by omega⟩
    · by_cases hfirst : 0 < x
      · have hprevious := add_dist a (x - 1)
        exact ⟨x - 1, .inr (.inl (by omega)), by omega⟩
      · have hlast := add_dist a (n - 1)
        exact ⟨n - 1, by omega, by omega⟩

/-! ## Stars and complete graphs -/

theorem distance_star (ha : a < n) (hb : b < n) :
    (star n).distance ⟨a⟩ ⟨b⟩ = some (if a = b then 0 else if a = 0 ∨ b = 0 then 1 else 2) := by
  apply distance_ofNumbered (d := fun x => if a = x then 0 else if a = 0 ∨ x = 0 then 1
    else 2) (by simp) _ _ hb
  · intro x y hxy
    obtain ⟨rfl, hpos, -⟩ := mem_starLinks.mp hxy
    grind
  · intro x hx hne
    simp only [mem_starLinks]
    by_cases hcenter : x = 0
    · exact ⟨a, by omega, by grind⟩
    · exact ⟨0, by omega, by grind⟩

theorem distance_full (ha : a < n) (hb : b < n) :
    (full n).distance ⟨a⟩ ⟨b⟩ = some (if a = b then 0 else 1) := by
  apply distance_ofNumbered (d := fun x => if a = x then 0 else 1) (by simp) _ _ hb
  · intro x y _
    constructor <;> split <;> omega
  · intro x hx hne
    simp only [mem_fullLinks]
    exact ⟨a, by omega, by simp [Ne.symm hne]⟩

/-! ## Grids -/

section

variable {rows cols r c : Nat}

theorem row_of_cell (hc : c < cols) : (r * cols + c) / cols = r := by
  rw [Nat.mul_comm, Nat.mul_add_div (Nat.lt_of_le_of_lt (Nat.zero_le c) hc), Nat.div_eq_of_lt hc,
    Nat.add_zero]

theorem column_of_cell (hc : c < cols) : (r * cols + c) % cols = c :=
  Nat.mul_add_mod_of_lt hc

theorem exists_cell (ha : a < rows * cols) : ∃ r c, r < rows ∧ c < cols ∧ a = r * cols + c := by
  have hcols : 0 < cols := Nat.pos_of_mul_pos_left (Nat.lt_of_le_of_lt (Nat.zero_le a) ha)
  refine ⟨a / cols, a % cols, Nat.div_lt_of_lt_mul (Nat.mul_comm rows cols ▸ ha),
    Nat.mod_lt a hcols, ?_⟩
  rw [Nat.mul_comm]
  exact (Nat.div_add_mod a cols).symm

theorem distance_grid (ha : a < rows * cols) (hb : b < rows * cols) :
    (grid rows cols).distance ⟨a⟩ ⟨b⟩ =
      some (Nat.dist (a / cols) (b / cols) + Nat.dist (a % cols) (b % cols)) := by
  obtain ⟨r₀, c₀, hr₀, hc₀, rfl⟩ := exists_cell ha
  rw [row_of_cell hc₀, column_of_cell hc₀]
  let d (x : Nat) : Nat := Nat.dist r₀ (x / cols) + Nat.dist c₀ (x % cols)
  have hcell : ∀ r c, c < cols → d (r * cols + c) = Nat.dist r₀ r + Nat.dist c₀ c := by
    intro r c hc
    simp only [d, row_of_cell hc, column_of_cell hc]
  apply distance_ofNumbered (d := d) _ _ _ hb
  · rw [hcell r₀ c₀ hc₀, Nat.dist_self, Nat.dist_self]
  · intro x y hxy
    obtain ⟨r, c, -, hc, rfl, ⟨hright, rfl⟩ | ⟨-, rfl⟩⟩ := mem_gridLinks.mp hxy
    · rw [hcell r c hc, hcell r (c + 1) hright]
      simp only [Nat.dist]
      omega
    · rw [hcell r c hc, hcell (r + 1) c hc]
      simp only [Nat.dist]
      omega
  · intro x hx hne
    obtain ⟨r, c, hr, hc, rfl⟩ := exists_cell hx
    rw [hcell r c hc]
    -- first along the column to the row of the start, then along that row
    rcases Nat.lt_trichotomy r r₀ with hrow | rfl | hrow
    · refine ⟨(r + 1) * cols + c,
        .inl (mem_gridLinks.mpr ⟨r, c, hr, hc, rfl, .inr ⟨by omega, rfl⟩⟩), ?_⟩
      rw [hcell (r + 1) c hc]
      simp only [Nat.dist]
      omega
    · rcases Nat.lt_trichotomy c c₀ with hcolumn | rfl | hcolumn
      · refine ⟨r * cols + (c + 1),
          .inl (mem_gridLinks.mpr ⟨r, c, hr, hc, rfl, .inl ⟨by omega, rfl⟩⟩), ?_⟩
        rw [hcell r (c + 1) (by omega)]
        simp only [Nat.dist]
        omega
      · exact absurd rfl hne
      · obtain ⟨k, rfl⟩ : ∃ k, c = k + 1 := ⟨c - 1, by omega⟩
        refine ⟨r * cols + k,
          .inr (mem_gridLinks.mpr ⟨r, k, hr, by omega, rfl, .inl ⟨hc, rfl⟩⟩), ?_⟩
        rw [hcell r k (by omega)]
        simp only [Nat.dist]
        omega
    · obtain ⟨k, rfl⟩ : ∃ k, r = k + 1 := ⟨r - 1, by omega⟩
      refine ⟨k * cols + c, .inr (mem_gridLinks.mpr ⟨k, c, by omega, hc, rfl, .inr ⟨hr, rfl⟩⟩), ?_⟩
      rw [hcell k c hc]
      simp only [Nat.dist]
      omega

end

/-! ## All families -/

/-- **The usual topologies have the distances that their names promise**, between any two of their
qubits. -/
theorem presets_distance_exact :
    (∀ n, ∀ a ∈ (linear n).qubits, ∀ b ∈ (linear n).qubits,
        (linear n).distance a b = some (Nat.dist a.id b.id)) ∧
      (∀ n, ∀ a ∈ (ring n).qubits, ∀ b ∈ (ring n).qubits,
        (ring n).distance a b = some (min (Nat.dist a.id b.id) (n - Nat.dist a.id b.id))) ∧
      (∀ n, ∀ a ∈ (star n).qubits, ∀ b ∈ (star n).qubits,
        (star n).distance a b =
          some (if a.id = b.id then 0 else if a.id = 0 ∨ b.id = 0 then 1 else 2)) ∧
      (∀ n, ∀ a ∈ (full n).qubits, ∀ b ∈ (full n).qubits,
        (full n).distance a b = some (if a.id = b.id then 0 else 1)) ∧
      ∀ rows cols, ∀ a ∈ (grid rows cols).qubits, ∀ b ∈ (grid rows cols).qubits,
        (grid rows cols).distance a b =
          some (Nat.dist (a.id / cols) (b.id / cols) + Nat.dist (a.id % cols) (b.id % cols)) :=
  ⟨fun _ _ ha _ hb => distance_linear (mem_firstQubits.mp ha) (mem_firstQubits.mp hb),
    fun _ _ ha _ hb => distance_ring (mem_firstQubits.mp ha) (mem_firstQubits.mp hb),
    fun _ _ ha _ hb => distance_star (mem_firstQubits.mp ha) (mem_firstQubits.mp hb),
    fun _ _ ha _ hb => distance_full (mem_firstQubits.mp ha) (mem_firstQubits.mp hb),
    fun _ _ _ ha _ hb => distance_grid (mem_firstQubits.mp ha) (mem_firstQubits.mp hb)⟩

/-- The last qubit of one row and the first of the next, the closing link of a cycle, and a cycle of
two qubits, which has none. -/
theorem presets_distance_exact_corners :
    (grid 2 3).distance ⟨2⟩ ⟨3⟩ = some 3 ∧ (ring 5).distance ⟨0⟩ ⟨4⟩ = some 1 ∧
      (ring 2).distance ⟨1⟩ ⟨0⟩ = some 1 ∧ (linear 6).distance ⟨5⟩ ⟨1⟩ = some 4 ∧
      (star 4).distance ⟨1⟩ ⟨3⟩ = some 2 ∧ (full 4).distance ⟨3⟩ ⟨1⟩ = some 1 := by
  have hmem : ∀ {n i : Nat}, i < n → (⟨i⟩ : PhysicalQubit) ∈ firstQubits n := mem_firstQubits.mpr
  obtain ⟨hlinear, hring, hstar, hfull, hgrid⟩ := presets_distance_exact
  refine ⟨hgrid 2 3 _ ?_ _ ?_, hring 5 _ ?_ _ ?_, hring 2 _ ?_ _ ?_, hlinear 6 _ ?_ _ ?_,
    hstar 4 _ ?_ _ ?_, hfull 4 _ ?_ _ ?_⟩
  all_goals exact hmem (by decide)

end Topology

end QubitRouting
