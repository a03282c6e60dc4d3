import QubitRouting.Proofs.Routing.Route
import QubitRouting.Topology.Presets

/-!
# No route takes more swaps than it must

Whoever swaps along links, whether on the path between two qubits or off it, changes their distance
by one link at most with every swap, also when both of them move at once
(`Swap.exists_leadsIn_of_perm`). So the distance of two qubits that are linked in the end was at
most one more than the number of swaps (`Swap.distance_le_of_adjacent_carry`). A route takes exactly
one swap less than that distance, and nothing shorter brings its two qubits together
(`Router.route_fewest`).
-/

set_option autoImplicit false

namespace QubitRouting

namespace Swap

variable {t : Topology} {p q : PhysicalQubit} {n : Nat}

/-- A swap along a link leaves a place alone or moves it across the link. -/
theorem perm_eq_or_adjacent {s : Swap} (hs : t.adjacent s.1 s.2) (p : PhysicalQubit) :
    s.perm p = p ∨ (p = s.1 ∨ p = s.2) ∧ t.adjacent p (s.perm p) := by
  by_cases h₁ : p = s.1
  · have hperm : s.perm p = s.2 := by rw [h₁]; exact Equiv.swap_apply_left s.1 s.2
    exact Or.inr ⟨Or.inl h₁, by rw [hperm, h₁]; exact hs⟩
  · by_cases h₂ : p = s.2
    · have hperm : s.perm p = s.1 := by rw [h₂]; exact Equiv.swap_apply_right s.1 s.2
      exact Or.inr ⟨Or.inr h₂, by rw [hperm, h₂, Topology.adjacent_comm]; exact hs⟩
    · exact Or.inl (Equiv.swap_apply_of_ne_of_ne h₁ h₂)

/-- **One swap changes distances by one link at most.** -/
theorem exists_leadsIn_of_perm {s : Swap} (hs : t.adjacent s.1 s.2)
    (h : t.graph.LeadsIn (s.perm p) n (s.perm q)) : ∃ k ≤ n + 1, t.graph.LeadsIn p k q := by
  have hlink : ∀ {x y : PhysicalQubit}, t.adjacent x y → t.graph.LeadsIn x 1 y := fun hxy =>
    FiniteGraph.leadsIn_one_iff.mpr (Topology.step_iff.mpr hxy)
  rcases perm_eq_or_adjacent hs p with hp | ⟨hends, hp⟩
  · rcases perm_eq_or_adjacent hs q with hq | ⟨-, hq⟩
    · rw [hp, hq] at h
      exact ⟨n, Nat.le_succ n, h⟩
    · rw [hp] at h
      rw [Topology.adjacent_comm] at hq
      exact ⟨n + 1, Nat.le_refl _, h.trans (hlink hq)⟩
  · rcases perm_eq_or_adjacent hs q with hq | ⟨hends', -⟩
    · rw [hq] at h
      exact ⟨1 + n, by omega, (hlink hp).trans h⟩
    · -- both are ends of the link, so they are one place or linked, before as after
      have hsame : p = q ∨ t.adjacent p q := by
        rcases hends with rfl | rfl <;> rcases hends' with rfl | rfl
        · exact Or.inl rfl
        · exact Or.inr hs
        · exact Or.inr (by rwa [Topology.adjacent_comm])
        · exact Or.inl rfl
      rcases hsame with rfl | hpq
      · exact ⟨0, Nat.zero_le _, .refl⟩
      · exact ⟨1, by omega, hlink hpq⟩

/-- So do many swaps by as many links. -/
theorem exists_leadsIn_of_carry {ss : List Swap} (hss : ∀ s ∈ ss, t.adjacent s.1 s.2)
    (h : t.graph.LeadsIn (carry ss p) n (carry ss q)) :
    ∃ k ≤ n + ss.length, t.graph.LeadsIn p k q := by
  induction ss generalizing p q with
  | nil => exact ⟨n, Nat.le_refl _, h⟩
  | cons s ss ih =>
    obtain ⟨k, hk, hlead⟩ := ih (fun s' hs' => hss s' (List.mem_cons_of_mem s hs')) h
    obtain ⟨k', hk', hlead'⟩ := exists_leadsIn_of_perm (hss s List.mem_cons_self) hlead
    exact ⟨k', by rw [List.length_cons]; omega, hlead'⟩

/-- Swaps that bring two places together are as many as the links that have to go, or more. -/
theorem distance_le_of_adjacent_carry {ss : List Swap} (hss : ∀ s ∈ ss, t.adjacent s.1 s.2)
    {d : Nat} (hd : t.distance p q = some d) (hlinked : t.adjacent (carry ss p) (carry ss q)) :
    d ≤ ss.length + 1 := by
  have hleads := FiniteGraph.leadsIn_one_iff.mpr (Topology.step_iff.mpr hlinked)
  obtain ⟨k, hk, hlead⟩ := exists_leadsIn_of_carry hss hleads
  have hle := (FiniteGraph.distance_eq_some_iff.mp hd).2 k hlead
  omega

end Swap

namespace Router

open Swap

variable {t : Topology} {g : InteractionGraph} {m : Layout} {a b : LogicalQubit}

/-- **Routes take the fewest swaps**: on a connected device routing succeeds for any two different
qubits that are placed on it, and no shorter list of swaps along links, wherever it leads, makes the
two sit on linked places. -/
theorem route_fewest (r : Router) (g : InteractionGraph) (hconn : t.Connected) (hab : a ≠ b)
    {pa pb : PhysicalQubit} (ha : m.physical a = some pa) (hb : m.physical b = some pb)
    (hpa : pa ∈ t.qubits) (hpb : pb ∈ t.qubits) :
    ∃ swaps m', r.route g t m a b = .ok (swaps, m') ∧
      ∀ ss : List Swap, (∀ s ∈ ss, t.adjacent s.1 s.2) → ss.length < swaps.length →
        ¬∃ qa qb, (m.swaps ss).physical a = some qa ∧ (m.swaps ss).physical b = some qb ∧
          t.adjacent qa qb := by
  obtain ⟨plan⟩ := exists_plan r g hconn ha hb hpa hpb
  refine ⟨plan.swaps, m.swaps plan.swaps, plan.route_eq hab ha hb, ?_⟩
  rintro ss hss hshort ⟨qa, qb, hqa, hqb, hlinked⟩
  rw [Layout.physical_swaps, ha] at hqa
  rw [Layout.physical_swaps, hb] at hqb
  obtain rfl := Option.some.inj hqa
  obtain rfl := Option.some.inj hqb
  have hle := distance_le_of_adjacent_carry hss (plan.distance_eq hab ha hb) hlinked
  omega

/-- Two qubits on opposite places of a ring of six need two swaps. One, which exchanges the first of
them with a third qubit beside it, is not enough. -/
theorem route_fewest_ring :
    let r : Router := ⟨.lessConnected, .edgeScore⟩
    let t := Topology.ring 6
    let m := ((Layout.empty.assign ⟨0⟩ ⟨0⟩).assign ⟨1⟩ ⟨3⟩).assign ⟨2⟩ ⟨1⟩
    let ss : List Swap := [(⟨1⟩, ⟨0⟩)]
    t.Connected ∧ m.physical ⟨0⟩ = some ⟨0⟩ ∧ m.physical ⟨1⟩ = some ⟨3⟩ ∧
      ∃ swaps m', r.route .empty t m ⟨0⟩ ⟨1⟩ = .ok (swaps, m') ∧ swaps.length = 2 ∧
        (∀ s ∈ ss, t.adjacent s.1 s.2) ∧
        ¬∃ qa qb, (m.swaps ss).physical ⟨0⟩ = some qa ∧ (m.swaps ss).physical ⟨1⟩ = some qb ∧
          t.adjacent qa qb := by
  intro r t m ss
  have hconn : t.Connected := by decide +kernel
  have ha : m.physical ⟨0⟩ = some ⟨0⟩ := by decide +kernel
  have hb : m.physical ⟨1⟩ = some ⟨3⟩ := by decide +kernel
  have hlength : (r.route .empty t m ⟨0⟩ ⟨1⟩).toOption.map (·.1.length) = some 2 := by
    decide +kernel
  have hss : ∀ s ∈ ss, t.adjacent s.1 s.2 := by decide +kernel
  obtain ⟨swaps, m', hroute, hfewest⟩ :=
    route_fewest r .empty hconn (by decide) ha hb (by decide +kernel) (by decide +kernel)
  rw [hroute] at hlength
  have htwo : swaps.length = 2 := Option.some.inj hlength
  exact ⟨hconn, ha, hb, swaps, m', hroute, htwo, hss, hfewest ss hss (by rw [htwo]; decide)⟩

end Router

end QubitRouting
