import QubitRouting.Proofs.Graph.Frontier
import QubitRouting.Proofs.Topology.Paths
import QubitRouting.Topology.Presets

/-!
# How far a qubit reaches

The reach of a qubit counts the neighbours of the qubits that a walk from it has visited, and these
are the first ones in the breadth-first order (`Proofs/Graph/Frontier.lean`). So it grows with the
budget, up to the number of all qubits that have a neighbour among those that can be reached; on a
connected device of two qubits or more these are all qubits (`card_neighbors_order`).
-/

set_option autoImplicit false

namespace QubitRouting.Topology

variable {t : Topology} {start a b : PhysicalQubit} {budget budget' : Nat}

theorem reach_eq_card (t : Topology) (start : PhysicalQubit) (budget : Nat) :
    t.reach budget start = ((t.graph.firstVisits start budget).flatMap t.neighbors).toFinset.card :=
  t.graph.reach_eq_card start budget

theorem reach_mono (h : budget ≤ budget') : t.reach budget start ≤ t.reach budget' start := by
  rw [reach_eq_card, reach_eq_card]
  apply Finset.card_le_card
  intro x hx
  rw [List.mem_toFinset, List.mem_flatMap] at hx ⊢
  obtain ⟨v, hv, hnear⟩ := hx
  exact ⟨v, (FiniteGraph.firstVisits_prefix h).subset hv, hnear⟩

theorem card_qubits (t : Topology) : t.qubits.toFinset.card = t.size :=
  List.toFinset_card_of_nodup t.nodup

/-- Whatever a walk notices is a qubit of the device. -/
theorem reach_le_size (t : Topology) (start : PhysicalQubit) (budget : Nat) :
    t.reach budget start ≤ t.size := by
  rw [reach_eq_card, ← card_qubits]
  apply Finset.card_le_card
  intro x hx
  rw [List.mem_toFinset] at hx ⊢
  obtain ⟨v, -, hnear⟩ := List.mem_flatMap.mp hx
  exact t.graph.neighbors_mem v x hnear

/-- From a qubit of a connected device the traversal comes to all qubits. -/
theorem Connected.mem_order_iff (h : t.Connected) (hstart : start ∈ t.qubits) :
    a ∈ t.graph.order start ↔ a ∈ t.qubits := by
  rw [FiniteGraph.mem_order_iff]
  constructor
  · intro hleads
    rcases hleads.eq_or_mem_nodes with rfl | hmem
    · exact hstart
    · exact hmem
  · exact h start hstart a

/-- On a connected device of two qubits or more every qubit has a neighbour. -/
theorem Connected.exists_adjacent (h : t.Connected) (hsize : 2 ≤ t.size) (ha : a ∈ t.qubits) :
    ∃ b ∈ t.qubits, a ∈ t.neighbors b := by
  -- some other qubit leads here, and the last step comes from a neighbour
  rw [← card_qubits] at hsize
  obtain ⟨b, hb, hne⟩ := Finset.exists_mem_ne hsize a
  rcases Relation.ReflTransGen.cases_tail (h b (List.mem_toFinset.mp hb) a ha) with heq | ⟨c,
    -, hstep⟩
  · exact absurd heq.symm hne
  · exact ⟨c, (joins_of_adjacent (step_iff.mp hstep)).1, hstep⟩

/-- **What the neighbours of all qubits are**: all qubits, unless there is only one. -/
theorem card_neighbors_order (h : t.Connected) (hstart : start ∈ t.qubits) :
    ((t.graph.order start).flatMap t.neighbors).toFinset.card = if 2 ≤ t.size then t.size
      else 0 := by
  split
  · rename_i hsize
    rw [← card_qubits]
    congr 1
    ext a
    rw [List.mem_toFinset, List.mem_flatMap, List.mem_toFinset]
    constructor
    · rintro ⟨b, -, hnear⟩
      exact t.graph.neighbors_mem b a hnear
    · intro ha
      obtain ⟨b, hb, hnear⟩ := h.exists_adjacent hsize ha
      exact ⟨b, (h.mem_order_iff hstart).mpr hb, hnear⟩
  · rename_i hsize
    rw [Finset.card_eq_zero, List.toFinset_eq_empty_iff, List.flatMap_eq_nil_iff]
    intro b _
    -- a link joins two different qubits
    by_contra hne
    obtain ⟨a, hnear⟩ := List.exists_mem_of_ne_nil _ hne
    obtain ⟨hb, ha, hba⟩ := joins_of_adjacent (step_iff.mp hnear)
    have hle := Finset.card_le_card (s := {b, a}) (t := t.qubits.toFinset) (by
      intro x hx
      rcases Finset.mem_insert.mp hx with rfl | hx
      · exact List.mem_toFinset.mpr hb
      · exact List.mem_toFinset.mpr (Finset.mem_singleton.mp hx ▸ ha))
    rw [card_qubits, Finset.card_pair hba] at hle
    exact hsize hle

/-- **The walk follows the breadth-first order.** There is a number `m` of nodes, growing with the
budget and no larger than it, such that the walk has visited the first `m` nodes of the order and
its reach is the number of their neighbours. With enough budget these are all nodes of the order. So
the reach grows with the budget, never beyond the number of qubits, and up to it on a connected
device of two qubits or more. -/
theorem reach_follows_order (t : Topology) (start : PhysicalQubit) :
    (∃ m : Nat → Nat,
      (∀ budget, m budget ≤ budget ∧ m budget ≤ (t.graph.order start).length ∧
        t.graph.firstVisits start budget = (t.graph.order start).take (m budget) ∧
        t.reach budget start =
        (((t.graph.order start).take (m budget)).flatMap t.neighbors).toFinset.card) ∧
      Monotone m ∧
      ∃ enough, ∀ budget ≥ enough, m budget = (t.graph.order start).length) ∧
    (Monotone fun budget => t.reach budget start) ∧
    (∀ budget, t.reach budget start ≤ t.size) ∧
    (t.Connected → start ∈ t.qubits → 2 ≤ t.size →
      ∃ enough, ∀ budget ≥ enough, t.reach budget start = t.size) := by
  obtain ⟨enough, henough⟩ := FiniteGraph.exists_firstVisits_eq_order t.graph start
  refine ⟨⟨fun budget => (t.graph.firstVisits start budget).length, ?_, ?_, enough, ?_⟩, ?_, ?_, ?_⟩
  · intro budget
    have hbegins : t.graph.firstVisits start budget <+: t.graph.order start :=
      FiniteGraph.firstVisits_prefix_order
    have htake := List.prefix_iff_eq_take.mp hbegins
    exact ⟨FiniteGraph.length_firstVisits_le, hbegins.length_le,
      htake, by rw [← htake, reach_eq_card]⟩
  · intro budget budget' hle
    exact (FiniteGraph.firstVisits_prefix hle).length_le
  · intro budget hbudget
    show (t.graph.firstVisits start budget).length = _
    rw [henough budget hbudget]
  · intro budget budget' hle
    exact reach_mono hle
  · exact t.reach_le_size start
  · intro hconn hstart hsize
    refine ⟨enough, fun budget hbudget => ?_⟩
    rw [reach_eq_card, henough budget hbudget, card_neighbors_order hconn hstart, if_pos hsize]

/-- On a triangle one visit reaches the two others, and enough visits reach all three. -/
theorem reach_follows_order_triangle :
    (full 3).Connected ∧ (full 3).reach 1 ⟨0⟩ = 2 ∧
      ∃ enough, ∀ budget ≥ enough, (full 3).reach budget ⟨0⟩ = 3 := by
  have hconn : (full 3).Connected := by decide +kernel
  exact ⟨hconn, by decide +kernel,
    (reach_follows_order (full 3) ⟨0⟩).2.2.2 hconn (by decide) (by decide)⟩

end QubitRouting.Topology
