import QubitRouting.Proofs.Interaction.Requests
import QubitRouting.Proofs.Placement.Total
import QubitRouting.Topology.Presets

/-!
# Placements leave no gaps

A qubit that waits goes to the nearest free place to somebody who is placed, or to a free slot of
the device. On a connected device both end next to a place that is taken: the way to the nearest
free place leads through taken ones, and a free slot without a taken neighbour is used only while
nobody is placed. So the taken places stay in one piece (`Layout.Contiguous`) with every step, and
they are in one piece in the end (`initialPlacement_contiguous`), whatever the interactions are.
-/

set_option autoImplicit false

namespace QubitRouting

variable {t : Topology} {g : InteractionGraph} {m m' : Layout} {l : LogicalQubit}
  {p : PhysicalQubit}

/-! ## Layouts in one piece -/

/-- Two linked places are both taken. -/
def Layout.Touch (m : Layout) (t : Topology) (p q : PhysicalQubit) : Prop :=
  t.adjacent p q ∧ m.isOccupied p ∧ m.isOccupied q

/-- The taken places belong to the device, and between any two of them there is a path along links
on which all places are taken. -/
structure Layout.Contiguous (m : Layout) (t : Topology) : Prop where
  onDevice : ∀ p, m.isOccupied p → p ∈ t.qubits
  joined : ∀ p q, m.isOccupied p → m.isOccupied q → Relation.ReflTransGen (m.Touch t) p q

/-- A place can be added without a gap: it is next to a taken one, or it is the first of all. -/
def Layout.Borders (m : Layout) (t : Topology) (p : PhysicalQubit) : Prop :=
  (∃ q, m.isOccupied q ∧ t.adjacent q p) ∨ ∀ q, ¬m.isOccupied q

theorem Layout.contiguous_empty (t : Topology) : Layout.empty.Contiguous t where
  onDevice _ hp := absurd hp not_isOccupied_empty
  joined _ _ hp _ := absurd hp not_isOccupied_empty

/-- **A place without a gap keeps a layout in one piece.** -/
theorem Layout.Contiguous.assign (h : m.Contiguous t) (hnew : ¬m.isPlaced l)
    (hfree : ¬m.isOccupied p)
    (hp : p ∈ t.qubits) (hborders : m.Borders t p) : (m.assign l p).Contiguous t := by
  have hocc : ∀ {q}, (m.assign l p).isOccupied q ↔ p = q ∨ m.isOccupied q :=
    isOccupied_assign_free hnew hfree
  have htouch : m.Touch t ≤ (m.assign l p).Touch t := fun _ _ hxy =>
    ⟨hxy.1, hocc.mpr (.inr hxy.2.1), hocc.mpr (.inr hxy.2.2)⟩
  have hmono := Relation.ReflTransGen.mono htouch
  -- from every taken place there is a way to the new one, and a way back
  have hways : ∀ x, (m.assign l p).isOccupied x →
      Relation.ReflTransGen ((m.assign l p).Touch t) x p ∧
        Relation.ReflTransGen ((m.assign l p).Touch t) p x := by
    intro x hx
    rcases hocc.mp hx with rfl | hx
    · exact ⟨.refl, .refl⟩
    · obtain ⟨q, hq, hlinked⟩ := hborders.resolve_right fun hnone => hnone x hx
      have hback : t.adjacent p q := by rwa [Topology.adjacent_comm]
      exact ⟨(hmono x q (h.joined x q hx hq)).tail ⟨hlinked, hocc.mpr (.inr hq),
        hocc.mpr (.inl rfl)⟩,
        (hmono q x (h.joined q x hq hx)).head ⟨hback, hocc.mpr (.inl rfl), hocc.mpr (.inr hq)⟩⟩
  constructor
  · intro q hq
    rcases hocc.mp hq with rfl | hq
    · exact hp
    · exact h.onDevice q hq
  · intro x y hx hy
    exact (hways x hx).1.trans (hways y hy).2

/-! ## Choosing a place -/

/-- A way out of a set of nodes leaves it over some link. -/
theorem FiniteGraph.Leads.exists_exit {α : Type} {g : FiniteGraph α} {P : α → Prop} {a b : α}
    (h : g.Leads a b) (ha : P a) (hb : ¬P b) : ∃ x y, g.Step x y ∧ P x ∧ ¬P y := by
  induction h with
  | refl => exact absurd ha hb
  | @tail c d _ hstep ih =>
    by_cases hc : P c
    · exact ⟨c, d, hstep, hc, hb⟩
    · exact ih hc

namespace Placement

/-- The nearest free place is next to a taken one. -/
theorem exists_adjacent_of_nearestFree {source : PhysicalQubit} (hsource : m.isOccupied source)
    (h : t.nearestFree m source = .ok p) : ∃ q, m.isOccupied q ∧ t.adjacent q p := by
  obtain ⟨r, hr, rfl⟩ := search_of_nearestFree h
  obtain ⟨hroute, hfree⟩ := FiniteGraph.search_isRoute hr
  have hleads := hroute.leadsIn
  cases hsteps : r.steps with
  | zero =>
    rw [hsteps, FiniteGraph.leadsIn_zero_iff] at hleads
    rw [← hleads, hsource] at hfree
    exact absurd hfree (by simp)
  | succ n =>
    rw [hsteps, FiniteGraph.leadsIn_succ_iff] at hleads
    obtain ⟨q, hq, hstep⟩ := hleads
    refine ⟨q, ?_, Topology.step_iff.mp hstep⟩
    -- a free place before the end of the way would have been found first
    by_contra hqfree
    have hle := FiniteGraph.search_steps_le hr hq (by simpa using hqfree)
    omega

/-- A free slot is next to a taken place, unless nobody is placed. -/
theorem borders_of_freeSlot? (hconn : t.Connected) (hdevice : ∀ q, m.isOccupied q → q ∈ t.qubits)
    (h : t.freeSlot? m = some p) : m.Borders t p := by
  rcases Option.or_eq_some_iff.mp h with hbeside | ⟨hnone, hfirst⟩
  · have hany := List.find?_some hbeside
    simp only [Bool.and_eq_true, List.any_eq_true] at hany
    obtain ⟨-, q, hq, hocc⟩ := hany
    refine Or.inl ⟨q, hocc, ?_⟩
    rw [Topology.adjacent_comm]
    exact Topology.step_iff.mp hq
  · refine Or.inr fun q hq => ?_
    have hpfree : ¬m.isOccupied p := by simpa using List.find?_some hfirst
    have hleads := hconn q (hdevice q hq) p (List.mem_of_find?_eq_some hfirst)
    -- on the way from a taken place to this one some link leads to a free slot beside a taken place
    obtain ⟨x, y, hstep, hx, hy⟩ := hleads.exists_exit (P := fun q => m.isOccupied q) hq hpfree
    have hback : x ∈ t.neighbors y := by
      rw [Topology.step_iff, Topology.adjacent_comm] at hstep
      exact Topology.step_iff.mpr hstep
    have hmissed := List.find?_eq_none.mp hnone y (t.graph.neighbors_mem x y hstep)
    simp only [Bool.and_eq_true, Bool.not_eq_true', List.any_eq_true, not_and,
      not_exists] at hmissed
    exact hmissed (by simpa using hy) x hback hx

/-! ## In one piece from the first qubit to the last -/

theorem Settles.contiguous {known : LogicalQubit → Prop} (hstep : Settles known t m m')
    (hconn : t.Connected) (h : m.Contiguous t) : m'.Contiguous t := by
  cases hstep with
  | near _ hnew hsource hp =>
    have hocc := Layout.isOccupied_iff.mpr ⟨_, Layout.physical_eq_some_iff.mp hsource⟩
    exact h.assign hnew (not_isOccupied_of_nearestFree hp)
      (mem_of_nearestFree (h.onDevice _ hocc) hp)
      (.inl (exists_adjacent_of_nearestFree hocc hp))
  | slot _ hnew hp =>
    obtain ⟨hmem, hfree⟩ := freeSlot?_eq_some hp
    exact h.assign hnew hfree hmem (borders_of_freeSlot? hconn h.onDevice hp)

theorem Grows.contiguous {known : LogicalQubit → Prop} (hgrows : Grows known t m m')
    (hconn : t.Connected) (h : m.Contiguous t) : m'.Contiguous t := by
  induction hgrows with
  | refl => exact h
  | tail _ hstep ih => exact hstep.contiguous hconn ih

/-- **Placements are in one piece**: on a connected device the taken places are joined by links
between them, for every circuit, with or without interactions, and every choice of options. -/
theorem initialPlacement_contiguous (options : PlacementOptions) (g : InteractionGraph)
    (hconn : t.Connected) (h : initialPlacement options g t = .ok m) : m.Contiguous t := by
  have houtcome := initialPlacement_outcome options g t
  generalize initialPlacement options g t = x at h houtcome
  cases houtcome with
  | refused => exact absurd h (by simp)
  | noDevice => exact absurd h (by simp)
  | isolated =>
    have hends : Ends (fun _ => True) t .empty (placeRemaining t g.qubitIds .empty) :=
      ends_placeRemaining fun _ _ => trivial
    exact (hends.grows h).contiguous hconn (Layout.contiguous_empty t)
  | @seeded seed start hseed hstart =>
    have hends : Ends (fun _ => True) t (Layout.empty.assign seed start) (fromSeed g t seed _) :=
      ends_fromSeed (fun _ _ _ _ => trivial) (fun _ _ => trivial) (heaviestUnplaced_eq_some hseed).1
    exact (hends.grows h).contiguous hconn <|
      (Layout.contiguous_empty t).assign Layout.not_isPlaced_empty Layout.not_isOccupied_empty
        (Topology.startingPosition_mem hstart) (.inr fun _ => Layout.not_isOccupied_empty)

/-- On a grid of nine, with places `0 1 2`, `3 4 5` and `6 7 8` in its rows, two pairs fill the
first row and go down at its end, and a qubit on its own begins the second row. -/
theorem initialPlacement_contiguous_grid :
    let g := InteractionGraph.empty.afterAll
      [.recordNamed "a" "b", .recordNamed "c" "d", .recordNamed "b" "a", .addQubit "e"]
    let t := Topology.grid 3 3
    t.Connected ∧ ∃ m, initialPlacement {} g t = .ok m ∧ m.physical ⟨3⟩ = some ⟨5⟩ ∧
      m.physical ⟨4⟩ = some ⟨3⟩ ∧ m.Contiguous t := by
  intro g t
  have hconn : t.Connected := by decide +kernel
  have hplaces :
      (initialPlacement {} g t).toOption.map (fun m => (m.physical ⟨3⟩, m.physical ⟨4⟩)) =
      some (some ⟨5⟩, some ⟨3⟩) := by decide +kernel
  obtain ⟨m, hm, hplaces⟩ := Option.map_eq_some_iff.mp hplaces
  have hm := toOption_eq_some_iff.mp hm
  obtain ⟨hd, he⟩ := Prod.mk.inj hplaces
  exact ⟨hconn, m, hm, hd, he, initialPlacement_contiguous {} g hconn hm⟩

end Placement

end QubitRouting
