import QubitRouting.Proofs.Graph.Distance
import QubitRouting.Proofs.Placement.Total

/-!
# The first pair is placed on a link

Growth begins with one qubit alone on the device. The strongest pull of this seed is followed first,
and the qubit that it pulls goes to the nearest free place. Since nobody else is there yet, the
place is next to that of the seed, whatever the device looks like. Nobody who has been placed moves
again, so in the finished placement some interacting qubits sit on linked places
(`exists_pair_adjacent`).
-/

set_option autoImplicit false

namespace QubitRouting

namespace Placement

variable {g : InteractionGraph} {t : Topology} {m : Layout} {seed : LogicalQubit}
  {start : PhysicalQubit}

/-! ## The nearest place -/

/-- Where a neighbour is free, the nearest free place is that of a neighbour. -/
theorem adjacent_of_nearestFree {source near q : PhysicalQubit} (hsource : m.isOccupied source)
    (hlinked : t.adjacent source near) (hnear : ¬m.isOccupied near)
    (h : t.nearestFree m source = .ok q) : t.adjacent source q := by
  obtain ⟨r, hr, rfl⟩ := search_of_nearestFree h
  obtain ⟨hroute, hfree⟩ := FiniteGraph.search_isRoute hr
  have hsteps : r.steps ≤ 1 :=
    FiniteGraph.search_steps_le hr (FiniteGraph.leadsIn_one_iff.mpr (Topology.step_iff.mpr hlinked))
      (by simpa using hnear)
  have hleads := hroute.leadsIn
  rcases Nat.le_one_iff_eq_zero_or_eq_one.mp hsteps with hzero | hone
  · rw [hzero, FiniteGraph.leadsIn_zero_iff] at hleads
    rw [← hleads, hsource] at hfree
    exact absurd hfree (by simp)
  · rw [hone, FiniteGraph.leadsIn_one_iff] at hleads
    exact Topology.step_iff.mp hleads

theorem physical_alone {k : LogicalQubit} :
    (Layout.empty.assign seed start).physical k = if seed = k then some start else none := by
  rw [Layout.physical_assign_free Layout.not_isOccupied_empty, Layout.physical_empty]

theorem isOccupied_alone {p : PhysicalQubit} :
    (Layout.empty.assign seed start).isOccupied p ↔ start = p := by
  rw [Layout.isOccupied_assign_free Layout.not_isPlaced_empty Layout.not_isOccupied_empty,
    or_iff_left Layout.not_isOccupied_empty]

/-- With one qubit on the device, the nearest free place is next to it. -/
theorem adjacent_of_nearestFree_alone {q : PhysicalQubit}
    (h : t.nearestFree (Layout.empty.assign seed start) start = .ok q) : t.adjacent start q := by
  obtain ⟨r, hr, rfl⟩ := search_of_nearestFree h
  obtain ⟨hroute, hfree⟩ := FiniteGraph.search_isRoute hr
  -- the way to the place that was found leaves the start over some neighbour, and that one is free
  rcases Relation.ReflTransGen.cases_head hroute.leads with hsame | ⟨near, hstep, -⟩
  · rw [← hsame, isOccupied_alone.mpr rfl] at hfree
    exact absurd hfree (by simp)
  · have hlinked := Topology.step_iff.mp hstep
    obtain ⟨-, -, hne⟩ := Topology.joins_of_adjacent hlinked
    exact adjacent_of_nearestFree (isOccupied_alone.mpr rfl) hlinked
      (fun hocc => hne (isOccupied_alone.mp hocc)) h

/-! ## The first pull -/

theorem partners_ne_nil (hwf : g.WellFormed) (h : seed ∈ connectedQubits g) :
    g.partners seed ≠ [] := by
  obtain ⟨i, hi⟩ := isConnected_iff.mp (List.mem_filter.mp h).2
  obtain ⟨c, hc, hseed⟩ := hwf.mem_incident_iff.mp hi
  rw [InteractionGraph.getElem?_pairs] at hc
  obtain ⟨e, he, rfl⟩ := Option.map_eq_some_iff.mp hc
  have hmem : e ∈ g.interactions.toList := Array.mem_toList_iff.mpr (Array.mem_of_getElem? he)
  obtain ⟨k, hk⟩ : ∃ k, e.joins seed k := by
    rcases hseed with rfl | rfl
    · exact ⟨e.second, InteractionGraph.joins_iff.mpr (.inl rfl)⟩
    · exact ⟨e.first, InteractionGraph.joins_iff.mpr (.inr rfl)⟩
  exact List.ne_nil_of_mem (hwf.mem_partners_iff.mpr ⟨e, hmem, hk, rfl⟩)

/-- A seed that meets others has a strongest pull. -/
theorem exists_first_pull (hwf : g.WellFormed) (h : seed ∈ connectedQubits g)
    (start : PhysicalQubit) :
    ∃ pull pulls, Pull.addFrom g (Layout.empty.assign seed start) seed [] = pull :: pulls ∧
      pull ∈ Pull.ofSource g (Layout.empty.assign seed start) seed := by
  obtain ⟨⟨target, weight⟩, hc⟩ := List.exists_mem_of_ne_nil _ (partners_ne_nil hwf h)
  have hnew : ¬(Layout.empty.assign seed start).isPlaced target := by
    rw [Layout.isPlaced_assign_free Layout.not_isOccupied_empty, not_or]
    exact ⟨(known_of_mem_partners hwf hc).2, Layout.not_isPlaced_empty⟩
  have hmem :
      (⟨weight, seed, target⟩ : Pull) ∈ Pull.addFrom g (Layout.empty.assign seed start) seed [] :=
    mem_foldl_insert.mpr (.inl (mem_ofSource.mpr ⟨rfl, hc, hnew⟩))
  obtain ⟨pull, pulls, hpulls⟩ := List.exists_cons_of_ne_nil (List.ne_nil_of_mem hmem)
  have hpull : pull ∈ Pull.addFrom g (Layout.empty.assign seed start) seed [] := by
    rw [hpulls]
    exact List.mem_cons_self
  exact ⟨pull, pulls, hpulls, (mem_foldl_insert.mp hpull).resolve_right List.not_mem_nil⟩

/-- Growth from a seed alone puts one of its partners next to it. -/
theorem exists_partner_adjacent (hwf : g.WellFormed) (hseed : seed ∈ connectedQubits g)
    (h : grow g t (Layout.empty.assign seed start) seed = .ok m) :
    ∃ partner place, ((seed, partner) ∈ g.pairs ∨ (partner, seed) ∈ g.pairs) ∧
      m.physical seed = some start ∧ m.physical partner = some place ∧ t.adjacent start place := by
  have hwithin := PullsWithin.nil.addFrom (closed_known hwf) (Layout.empty.assign seed start)
    (lt_of_mem_connectedQubits hseed)
  obtain ⟨pull, pulls, hpulls, hpull⟩ := exists_first_pull hwf hseed start
  obtain ⟨hsource, hpartner, hnew⟩ := mem_ofSource.mp hpull
  rw [hpulls] at hwithin
  have hrest : PullsWithin (Known g) pulls := fun p hp => hwithin p (List.mem_cons_of_mem pull hp)
  have htarget := hwithin pull List.mem_cons_self
  have hanchor : (Layout.empty.assign seed start).physical pull.source = some start := by
    rw [physical_alone, if_pos hsource.symm]
  rw [grow, hpulls, pullBound, followPulls, if_neg hnew, hanchor] at h
  obtain ⟨place, hplace, h⟩ := bind_eq_ok_iff.mp h
  have hstep : Settles (Known g) t _ _ := .near htarget hnew hanchor hplace
  have hgrows :=
    (ends_followPulls (closed_known hwf) (hrest.addFrom (closed_known hwf) _ htarget)).grows h
  refine ⟨pull.target, place, mem_pairs_of_mem_partners hwf hpartner, ?_, ?_,
    adjacent_of_nearestFree_alone hplace⟩
  · exact hgrows.keeps (hstep.keeps (by rw [physical_alone, if_pos rfl]))
  · exact hgrows.keeps (by rw [Layout.physical_assign_free (not_isOccupied_of_nearestFree hplace),
      if_pos rfl])

/-- **Some interaction is across a link**: wherever qubits of the circuit interact, every placement
puts two of them that do so next to each other. -/
theorem exists_pair_adjacent {options : PlacementOptions} (hwf : g.WellFormed)
    (hpairs : g.pairs ≠ []) (h : initialPlacement options g t = .ok m) :
    ∃ e ∈ g.pairs, ∃ p q, m.physical e.1 = some p ∧ m.physical e.2 = some q ∧ t.adjacent p q := by
  have hsome := mt (connectedQubits_eq_nil_iff hwf).mp hpairs
  have houtcome := initialPlacement_outcome options g t
  generalize initialPlacement options g t = x at h houtcome
  cases houtcome with
  | refused hnone => exact absurd hnone hsome
  | isolated hnone => exact absurd hnone hsome
  | noDevice => exact absurd h (by simp)
  | @seeded seed start hseed hstart =>
    have hmem := (heaviestUnplaced_eq_some hseed).1
    obtain ⟨m₁, hm₁, h⟩ := bind_eq_ok_iff.mp h
    obtain ⟨m₂, hm₂, h⟩ := bind_eq_ok_iff.mp h
    obtain ⟨partner, place, hpair, hp, hq, hlinked⟩ := exists_partner_adjacent hwf hmem hm₁
    -- the qubits that are placed later leave both where they are
    have hgroups :=
      (ends_placeGroups (closed_known hwf) fun q hq => lt_of_mem_connectedQubits hq).grows hm₂
    have hgrows := hgroups.trans ((ends_placeRemaining fun q hq => mem_qubitIds.mp hq).grows h)
    have hp := Grows.keeps hgrows hp
    have hq := Grows.keeps hgrows hq
    rcases hpair with hpair | hpair
    · exact ⟨_, hpair, start, place, hp, hq, hlinked⟩
    · rw [Topology.adjacent_comm] at hlinked
      exact ⟨_, hpair, place, start, hq, hp, hlinked⟩

end Placement

end QubitRouting
