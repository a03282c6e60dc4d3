import QubitRouting.Proofs.Graph.Distance
import QubitRouting.Topology.Basic

/-!
# Links, paths and connected devices

What routing and placement need to know about a device: links go both ways and join two different
qubits of it, a shortest path is a path along links, and on a connected device there is one between
any two qubits. It has as many links as the distance says, and the distance is the same in both
directions. The center and the starting position are qubits of the device.
-/

set_option autoImplicit false

namespace QubitRouting

theorem Link.mem_neighbors {links : List Link} {a b : PhysicalQubit} :
    b ∈ Link.neighbors links a ↔ (a, b) ∈ links ∨ (b, a) ∈ links := by
  simp only [Link.neighbors, List.mem_flatMap, Link.ends, List.mem_append]
  constructor
  · rintro ⟨⟨c, d⟩, hl, h | h⟩ <;> split at h
    · rename_i hc
      obtain rfl := List.mem_singleton.mp h
      exact Or.inl (hc ▸ hl)
    · exact absurd h List.not_mem_nil
    · rename_i hd
      obtain rfl := List.mem_singleton.mp h
      exact Or.inr (hd ▸ hl)
    · exact absurd h List.not_mem_nil
  · rintro (h | h)
    · exact ⟨(a, b), h, Or.inl (by simp)⟩
    · exact ⟨(b, a), h, Or.inr (by simp)⟩

namespace Topology

/-- Every qubit can be reached from every other one. -/
def Connected (t : Topology) : Prop := ∀ a ∈ t.qubits, ∀ b ∈ t.qubits, t.graph.Leads a b

/-! ## Links -/

theorem adjacent_iff {t : Topology} {a b : PhysicalQubit} :
    t.adjacent a b ↔ (a, b) ∈ t.links ∨ (b, a) ∈ t.links := by
  rw [adjacent, List.contains_iff_mem, t.neighbors_eq, Link.mem_neighbors]

theorem adjacent_comm (t : Topology) (a b : PhysicalQubit) : t.adjacent a b = t.adjacent b a := by
  rw [Bool.eq_iff_iff, adjacent_iff, adjacent_iff]
  exact Or.comm

/-- The two ends of a link are different qubits of the device. -/
theorem joins_of_adjacent {t : Topology} {a b : PhysicalQubit} (h : t.adjacent a b) :
    Link.Joins t.qubits (a, b) := by
  rcases adjacent_iff.mp h with h | h
  · exact t.joins _ h
  · obtain ⟨hb, ha, hne⟩ := t.joins _ h
    exact ⟨ha, hb, hne.symm⟩

theorem step_iff {t : Topology} {a b : PhysicalQubit} : t.graph.Step a b ↔ t.adjacent a b := by
  rw [adjacent, List.contains_iff_mem]
  exact Iff.rfl

/-! ## Paths -/

/-- A shortest path goes from its source to its target, one link at a time and without a detour. -/
theorem isPath_of_shortestPath {t : Topology} {a b : PhysicalQubit} {path : List PhysicalQubit}
    (h : t.shortestPath a b = some path) :
    t.graph.IsPath path ∧ path.head? = some a ∧ path.getLast? = some b := by
  obtain ⟨r, hr, rfl⟩ := Option.map_eq_some_iff.mp h
  obtain ⟨hroute, hnode⟩ := FiniteGraph.search_isRoute hr
  refine ⟨hroute.isPath, hroute.head?_path, ?_⟩
  rw [FiniteGraph.getLast?_path, eq_of_beq hnode]

theorem Connected.exists_shortestPath {t : Topology} (h : t.Connected) {a b : PhysicalQubit}
    (ha : a ∈ t.qubits) (hb : b ∈ t.qubits) : ∃ path, t.shortestPath a b = some path := by
  obtain ⟨r, hr⟩ := FiniteGraph.search_isSome (p := (· == b)) (h a ha b hb) (by simp)
  exact ⟨r.path, by rw [shortestPath, FiniteGraph.shortestPath, hr]; rfl⟩

theorem Connected.exists_distance {t : Topology} (h : t.Connected) {a b : PhysicalQubit}
    (ha : a ∈ t.qubits) (hb : b ∈ t.qubits) : ∃ d, t.distance a b = some d := by
  obtain ⟨r, hr⟩ := FiniteGraph.search_isSome (p := (· == b)) (h a ha b hb) (by simp)
  exact ⟨r.steps, by rw [distance, FiniteGraph.distance, hr]; rfl⟩

theorem leadsIn_comm {t : Topology} {a b : PhysicalQubit} {n : Nat} :
    t.graph.LeadsIn a n b ↔ t.graph.LeadsIn b n a := by
  have hsymm : ∀ x y, t.graph.Step x y → t.graph.Step y x := by
    intro x y hxy
    rwa [step_iff, adjacent_comm, ← step_iff]
  exact ⟨.symm hsymm, .symm hsymm⟩

theorem distance_comm (t : Topology) (a b : PhysicalQubit) : t.distance a b = t.distance b a := by
  apply Option.ext
  intro d
  rw [distance, FiniteGraph.distance_eq_some_iff, distance, FiniteGraph.distance_eq_some_iff]
  simp only [leadsIn_comm (a := a)]

/-- A shortest path has one qubit more than it has links. -/
theorem distance_of_shortestPath {t : Topology} {a b : PhysicalQubit} {path : List PhysicalQubit}
    (h : t.shortestPath a b = some path) : t.distance a b = some (path.length - 1) := by
  obtain ⟨r, hr, rfl⟩ := Option.map_eq_some_iff.mp h
  rw [distance, FiniteGraph.distance, hr, Route.path, List.length_reverse, List.length_cons]
  rfl

/-- Connected devices are those on which every search for a path succeeds. -/
theorem connected_iff {t : Topology} :
    t.Connected ↔ ∀ a ∈ t.qubits, ∀ b ∈ t.qubits, (t.shortestPath a b).isSome := by
  constructor
  · intro h a ha b hb
    exact Option.isSome_iff_exists.mpr (h.exists_shortestPath ha hb)
  · intro h a ha b hb
    obtain ⟨path, hsearch⟩ := Option.isSome_iff_exists.mp (h a ha b hb)
    obtain ⟨r, hr, -⟩ := Option.map_eq_some_iff.mp hsearch
    obtain ⟨hroute, hnode⟩ := FiniteGraph.search_isRoute hr
    rw [← eq_of_beq hnode]
    exact hroute.leads

instance (t : Topology) : Decidable t.Connected := decidable_of_iff _ connected_iff.symm

/-- A search that starts in the device stays in it. -/
theorem mem_of_search {t : Topology} {a : PhysicalQubit} (ha : a ∈ t.qubits)
    {p : PhysicalQubit → Bool} {r : Route PhysicalQubit} (h : t.graph.search a p = some r) :
    r.node ∈ t.qubits := by
  obtain ⟨hroute, -⟩ := FiniteGraph.search_isRoute h
  cases hback : r.back with
  | nil =>
    have hbegins := hroute.begins
    rw [hback] at hbegins
    obtain rfl : r.node = a := Option.some.inj hbegins
    exact ha
  | cons b back =>
    have hchain := hroute.chain
    rw [hback] at hchain
    exact t.graph.neighbors_mem b _ (List.isChain_cons_cons.mp hchain).1

/-! ## The center and the starting position -/

theorem mem_of_center?_eq_some {t : Topology} {q : PhysicalQubit} (h : t.center? = some q) :
    q ∈ t.qubits := by
  rw [t.center?_eq, centerOf] at h
  obtain ⟨c, hc, rfl⟩ := Option.map_eq_some_iff.mp h
  exact firstLargest_mem hc

theorem center_eq_ok_iff {t : Topology} {q : PhysicalQubit} :
    t.center = .ok q ↔ t.center? = some q := by
  rw [center]
  cases t.center? <;> simp

theorem exists_center {t : Topology} (h : t.qubits ≠ []) : ∃ q, t.center = .ok q := by
  obtain ⟨a, as, hqs⟩ := List.exists_cons_of_ne_nil h
  have hsome : ∃ q, t.center? = some q := by
    rw [t.center?_eq, centerOf, hqs]
    exact ⟨_, rfl⟩
  exact hsome.imp fun q hq => center_eq_ok_iff.mpr hq

theorem climb_mem {t : Topology} {budget fuel : Nat} {here : PhysicalQubit × Nat}
    (h : here.1 ∈ t.qubits) : t.climb budget fuel here ∈ t.qubits := by
  induction fuel generalizing here with
  | zero => exact h
  | succ fuel ih =>
    rw [climb]
    split
    · refine ih ?_
      rcases foldl_pickBetter_mem (fun a b : Nat => decide (b < a)) (t.reach budget)
        (t.neighbors here.1) here with hbest | hbest
      · rw [hbest]
        exact h
      · exact t.graph.neighbors_mem here.1 _ hbest
    · exact h

theorem startingPosition_mem {t : Topology} {count : Nat} {q : PhysicalQubit}
    (h : t.startingPosition count = .ok q) : q ∈ t.qubits := by
  rw [startingPosition] at h
  cases hc : t.center with
  | error e => rw [hc] at h; exact absurd h (by simp [bind, Except.bind])
  | ok center =>
    rw [hc] at h
    obtain rfl := Except.ok.inj h
    exact climb_mem (mem_of_center?_eq_some (center_eq_ok_iff.mp hc))

theorem exists_startingPosition {t : Topology} (h : t.qubits ≠ []) (count : Nat) :
    ∃ q, t.startingPosition count = .ok q := by
  obtain ⟨center, hc⟩ := exists_center h
  rw [startingPosition, hc]
  exact ⟨_, rfl⟩

theorem startingPosition_of_nil {t : Topology} (h : t.qubits = []) (count : Nat) :
    t.startingPosition count = .error .emptyTopology := by
  have hnone : t.center? = none := by
    rw [t.center?_eq, centerOf, h]
    rfl
  rw [startingPosition, center, hnone]
  rfl

end Topology

end QubitRouting
