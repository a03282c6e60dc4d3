import Mathlib.Data.List.Count
import QubitRouting.Proofs.Graph.Parts
import QubitRouting.Proofs.Topology.Paths
import QubitRouting.Topology.Validation

/-!
# Devices made from links

A device keeps each pair of linked qubits once, where it first occurs (`Link.mem_distinct`), so its
neighbour lists have no repetitions (`nodup_neighbors`). The checks of `Topology.ofEdges` let
exactly those lists of qubits and links pass that make a connected device (`ofEdges_eq_ok_iff`), and
what passes has all the properties that the rest of the library relies on (`Realizes`).
-/

set_option autoImplicit false

namespace QubitRouting

/-- All nodes hang together by links, which go both ways. -/
def Hangs {α : Type} (nodes : List α) (links : List (α × α)) : Prop :=
  ∀ a ∈ nodes, ∀ b ∈ nodes, Relation.ReflTransGen (fun x y => (x, y) ∈ links ∨ (y, x) ∈ links) a b

/-- Nodes that are called differently still hang together. -/
theorem hangs_map_iff {α β : Type} {f : α → β} {g : β → α} (hgf : ∀ a, g (f a) = a) {nodes : List α}
    {links : List (α × α)} :
    Hangs (nodes.map f) (links.map (Prod.map f f)) ↔ Hangs nodes links := by
  have hmem : ∀ x y, (x, y) ∈ links.map (Prod.map f f) → (g x, g y) ∈ links := by
    intro x y hxy
    obtain ⟨l, hl, heq⟩ := List.mem_map.mp hxy
    obtain ⟨rfl, rfl⟩ := Prod.mk.inj heq
    rw [hgf, hgf]
    exact hl
  constructor
  · intro h a ha b hb
    have hab := h (f a) (List.mem_map_of_mem ha) (f b) (List.mem_map_of_mem hb)
    rw [← hgf a, ← hgf b]
    exact hab.lift g fun x y hxy => hxy.imp (hmem x y) (hmem y x)
  · intro h x hx y hy
    obtain ⟨a, ha, rfl⟩ := List.mem_map.mp hx
    obtain ⟨b, hb, rfl⟩ := List.mem_map.mp hy
    exact (h a ha b hb).lift f fun x y hxy =>
      hxy.imp (fun h => List.mem_map.mpr ⟨_, h, rfl⟩) (fun h => List.mem_map.mpr ⟨_, h, rfl⟩)

namespace Link

variable {links : List Link} {l : Link} {a b q r : PhysicalQubit}

/-! ## Each pair once -/

/-- Leaving out what is linked already leaves the same qubits linked. -/
theorem mem_distinctFrom {linked : Table} (h : linked.Symmetric) :
    b ∈ linked.getD a [] ∨ (a, b) ∈ distinctFrom linked links ∨ (b, a) ∈ distinctFrom linked links ↔
      b ∈ linked.getD a [] ∨ (a, b) ∈ links ∨ (b, a) ∈ links := by
  induction links generalizing linked with
  | nil => exact Iff.rfl
  | cons l links ih =>
    rw [distinctFrom]
    split
    · rename_i hlinked
      rw [ih h, List.mem_cons, List.mem_cons]
      have hl := List.contains_iff_mem.mp hlinked
      constructor
      · exact Or.imp_right (Or.imp Or.inr Or.inr)
      · rintro (hb | (rfl | hmem) | (rfl | hmem))
        · exact Or.inl hb
        · exact Or.inl hl
        · exact Or.inr (Or.inl hmem)
        · exact Or.inl (h b a hl)
        · exact Or.inr (Or.inr hmem)
    · have hrest := ih (h.cons_cons l)
      rw [Table.mem_getD_cons_cons] at hrest
      have hregroup (P Q R S T : Prop) : P ∨ (Q ∨ R) ∨ S ∨ T ↔ (P ∨ Q ∨ S) ∨ R ∨ T := by
        rw [or_assoc (a := P)]
        exact or_congr_right or_or_or_comm
      rw [List.mem_cons, List.mem_cons, List.mem_cons, List.mem_cons, eq_comm (b := l),
        eq_comm (b := l), hregroup, hregroup]
      exact hrest

theorem mem_distinct :
    (a, b) ∈ distinct links ∨ (b, a) ∈ distinct links ↔ (a, b) ∈ links ∨ (b, a) ∈ links := by
  have hnone : b ∉ (∅ : Table).getD a [] := by simp
  exact (or_iff_right hnone).symm.trans
    ((mem_distinctFrom symmetric_empty).trans (or_iff_right hnone))

/-- Where pairs do not repeat, neighbours do not repeat. -/
theorem Once.nodup_neighbors (h : Once links) (hloop : ∀ l ∈ links, l.1 ≠ l.2) (q : PhysicalQubit) :
    (neighbors links q).Nodup := by
  rw [neighbors, List.nodup_flatMap]
  constructor
  · rintro ⟨x, y⟩ hl
    have hne : x ≠ y := hloop _ hl
    by_cases hx : x = q
    · simp [ends, hx, Ne.symm (hx ▸ hne)]
    · by_cases hy : y = q
      · simp [ends, hx, hy]
      · simp [ends, hx, hy]
  · apply h.imp
    rintro l l' ⟨hne, hswap⟩ r hr hr'
    rw [mem_ends] at hr hr'
    rcases hr with rfl | rfl <;> rcases hr' with rfl | rfl
    · exact hne rfl
    · exact hswap rfl
    · exact hswap rfl
    · exact hne rfl

/-- Of the two directions of a linked pair, one is listed, and once. -/
theorem Once.count_add_count (h : Once links) (hloop : ∀ l ∈ links, l.1 ≠ l.2)
    (a b : PhysicalQubit) :
    links.count (a, b) + links.count (b, a) = if (a, b) ∈ links ∨ (b, a) ∈ links then 1 else 0 := by
  have hnodup : links.Nodup := h.imp And.left
  have hboth : (a, b) ∈ links → (b, a) ∉ links := by
    intro hab hba
    have hne : (a, b) ≠ (b, a) := fun heq => hloop _ hab (Prod.mk.inj heq).1
    have hsymm : Std.Symm fun l l' : Link => l ≠ l' ∧ l ≠ l'.swap := by
      constructor
      rintro l l' ⟨hne, hswap⟩
      exact ⟨hne.symm, fun heq => hswap (by rw [heq, Prod.swap_swap])⟩
    exact (h.forall hab hba hne).2 rfl
  rw [hnodup.count, hnodup.count]
  by_cases hab : (a, b) ∈ links
  · simp [hab, hboth hab]
  · by_cases hba : (b, a) ∈ links
    · simp [hab, hba]
    · simp [hab, hba]

end Link

namespace Topology

variable {qubits : List PhysicalQubit} {links : List Link} {a b : PhysicalQubit}

/-! ## Devices that pass the checks -/

theorem adjacent_ofLinks {nodup : qubits.Nodup} {joins : ∀ l ∈ links, l.Joins qubits} :
    (ofLinks qubits links nodup joins).adjacent a b ↔ (a, b) ∈ links ∨ (b, a) ∈ links :=
  adjacent_iff.trans Link.mem_distinct

theorem connected_ofLinks_iff {nodup : qubits.Nodup} {joins : ∀ l ∈ links, l.Joins qubits} :
    (ofLinks qubits links nodup joins).Connected ↔ Hangs qubits links := by
  have hstep : (ofLinks qubits links nodup joins).graph.Step =
      fun x y => (x, y) ∈ links ∨ (y, x) ∈ links := by
    funext x y
    exact propext (step_iff.trans adjacent_ofLinks)
  unfold Connected FiniteGraph.Leads
  rw [hstep]
  rfl

theorem partCount_le_one_iff (joins : ∀ l ∈ links, l.Joins qubits) :
    partCount qubits links joins ≤ 1 ↔ Hangs qubits links := by
  have hmem : ∀ x y, y ∈ (Link.Table.ofLinks links).getD x [] ↔
      (x, y) ∈ links ∨ (y, x) ∈ links := by
    intro x y
    rw [Link.Table.getD_ofLinks, Link.mem_neighbors]
  rw [partCount, FiniteGraph.partCount_le_one_iff]
  · unfold FiniteGraph.Leads FiniteGraph.Step Hangs
    simp only [hmem]
  · intro x y hxy
    exact (hmem y x).mpr ((hmem x y).mp hxy).symm

theorem linkFault_eq_none_iff {l : Link} : linkFault qubits l = none ↔ l.Joins qubits := by
  refine ⟨joins_of_linkFault_eq_none, fun h => ?_⟩
  obtain ⟨h₁, h₂, hne⟩ := h
  simp [linkFault, h₁, h₂, hne]

/-- **The checks** let exactly connected devices pass. -/
theorem ofEdges_eq_ok_iff {t : Topology} :
    ofEdges qubits links = .ok t ↔
      ∃ (nodup : qubits.Nodup) (joins : ∀ l ∈ links, l.Joins qubits),
        Hangs qubits links ∧ t = ofLinks qubits links nodup joins := by
  unfold ofEdges
  split
  · rename_i hnodup
    split
    · rename_i fault hfault
      constructor
      · intro h
        cases h
      · rintro ⟨-, joins, -⟩
        have hnone : links.findSome? (linkFault qubits) = none :=
          List.findSome?_eq_none_iff.mpr fun l hl => linkFault_eq_none_iff.mpr (joins l hl)
        rw [hnone] at hfault
        cases hfault
    · rename_i hnone
      have hjoins := joins_of_findSome?_eq_none hnone
      dsimp only
      split
      · rename_i hparts
        constructor
        · intro h
          cases h
        · rintro ⟨-, -, hhangs, -⟩
          exact absurd ((partCount_le_one_iff hjoins).mpr hhangs) (Nat.not_le.mpr hparts)
      · rename_i hparts
        have hhangs := (partCount_le_one_iff hjoins).mp (Nat.le_of_not_lt hparts)
        constructor
        · intro h
          exact ⟨hnodup, hjoins, hhangs, (Except.ok.inj h).symm⟩
        · rintro ⟨-, -, -, rfl⟩
          rfl
  · rename_i hnodup
    constructor
    · intro h
      cases h
    · rintro ⟨nodup, -⟩
      exact absurd nodup hnodup

/-- The device has these qubits, and is connected by these links. -/
structure Realizes (t : Topology) (qubits : List PhysicalQubit) (links : List Link) : Prop where
  qubits : t.qubits = qubits
  adjacent : ∀ a b, t.adjacent a b ↔ (a, b) ∈ links ∨ (b, a) ∈ links
  symmetric : ∀ a b, t.adjacent a b = t.adjacent b a
  /-- Every linked pair is listed in one of its two directions, once. -/
  once : ∀ a b, t.links.count (a, b) + t.links.count (b, a) = if t.adjacent a b then 1 else 0
  nodup : ∀ q, (t.neighbors q).Nodup
  loopless : ∀ q, ¬t.adjacent q q
  connected : t.Connected

theorem nodup_neighbors (t : Topology) (q : PhysicalQubit) : (t.neighbors q).Nodup := by
  rw [t.neighbors_eq]
  exact t.once.nodup_neighbors (fun l hl => (t.joins l hl).2.2) q

theorem realizes_of_ofEdges {t : Topology} (h : ofEdges qubits links = .ok t) :
    t.Realizes qubits links := by
  obtain ⟨nodup, joins, hhangs, rfl⟩ := ofEdges_eq_ok_iff.mp h
  refine ⟨rfl, fun a b => adjacent_ofLinks, adjacent_comm _, ?_, nodup_neighbors _, ?_,
    connected_ofLinks_iff.mpr hhangs⟩
  · intro a b
    rw [(ofLinks qubits links nodup joins).once.count_add_count fun l hl =>
      (Topology.joins _ l hl).2.2]
    simp only [adjacent_iff]
  · intro q hq
    exact (joins_of_adjacent hq).2.2 rfl

end Topology

end QubitRouting
