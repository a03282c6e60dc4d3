import QubitRouting.Proofs.Interaction.Requests
import QubitRouting.Proofs.Routing.Route
import QubitRouting.Topology.Presets

/-!
# The contract of routing

All that a caller may rely on when two qubits are brought together (`Router.Contract`): how many
swaps it takes and between which places, where the two qubits are afterwards, and what becomes of
everybody else. On a connected device every router keeps this contract for any two qubits that are
placed on it (`Router.route_contract`); the strategies only decide which end of the path moves how
far.
-/

set_option autoImplicit false

namespace QubitRouting

namespace Router

open Swap

variable {r : Router} {g : InteractionGraph} {t : Topology} {m m' : Layout} {a b : LogicalQubit}
  {x : PhysicalQubit}

/-! ## Who moves how far -/

/-- A qubit that sits on the path between the two makes room by one step, and all others stay. -/
theorem Plan.carry_eq_or_adjacent (plan : r.Plan g t m a b) (hsource : x ≠ plan.source)
    (htarget : x ≠ plan.target) : carry plan.swaps x = x ∨ t.adjacent x (carry plan.swaps x) := by
  obtain ⟨⟨hchain, hnodup⟩, hhead, hlast⟩ := plan.isPath
  by_cases hmem : x ∈ plan.path
  · obtain ⟨i, hi⟩ := List.getElem?_of_mem hmem
    have hlinked :
        ∀ {j : Nat} {p q : PhysicalQubit}, plan.path[j]? = some p → plan.path[j + 1]? = some q →
        t.adjacent p q := by
      intro j p q hp hq
      obtain ⟨hlt, rfl⟩ := List.getElem?_eq_some_iff.mp hq
      obtain ⟨hlt', rfl⟩ := List.getElem?_eq_some_iff.mp hp
      exact Topology.step_iff.mp (List.isChain_iff_getElem.mp hchain j hlt)
    cases i with
    | zero =>
      rw [← List.head?_eq_getElem?, hhead] at hi
      exact absurd (Option.some.inj hi).symm hsource
    | succ i =>
      refine Or.inr ?_
      by_cases hbefore : i < plan.stop
      · rw [Topology.adjacent_comm]
        exact hlinked (carry_splitSwaps_before hnodup hbefore hi) hi
      · -- the end of the path is where the anchor sits
        have hend : i + 1 + 1 < plan.path.length := by
          have hlt := (List.getElem?_eq_some_iff.mp hi).1
          by_contra hge
          have hsame : i + 1 = plan.path.length - 1 := by omega
          rw [hsame, ← List.getLast?_eq_getElem?, hlast] at hi
          exact htarget (Option.some.inj hi).symm
        exact hlinked hi (carry_splitSwaps_behind hnodup (by omega) hend hi)
  · exact Or.inl (carry_splitSwaps_of_notMem hmem)

/-- The anchor stays if the mover comes all the way. -/
theorem Plan.carry_target (plan : r.Plan g t m a b) (hab : a ≠ b)
    (htruncate : r.meeting = .truncate) :
    carry plan.swaps plan.target = plan.target := by
  obtain ⟨⟨-, hnodup⟩, -, hlast⟩ := plan.isPath
  have hstop := plan.stop_lt hab
  have harrives := carry_splitSwaps_last hnodup hstop hlast
  have hend : plan.stop + 1 = plan.path.length - 1 := by
    have hmeet : plan.stop = plan.path.length - 2 := by
      rw [stop, htruncate]
      rfl
    omega
  rw [hend, ← List.getLast?_eq_getElem?, hlast] at harrives
  exact (Option.some.inj harrives).symm

/-! ## The contract -/

/-- What routing two qubits of a layout does: it returns `swaps` and leaves `m'`. -/
structure Contract (r : Router) (g : InteractionGraph) (t : Topology) (m : Layout)
    (a b : LogicalQubit) (swaps : List Swap) (m' : Layout) : Prop where
  /-- There is one swap less than links between the two places. -/
  length : ∀ pa pb, m.physical a = some pa → m.physical b = some pb →
    t.distance pa pb = some (swaps.length + 1)
  alongLinks : ∀ s ∈ swaps, t.adjacent s.1 s.2
  performed : m' = m.swaps swaps
  linked : ∃ pa pb, m'.physical a = some pa ∧ m'.physical b = some pb ∧ t.adjacent pa pb
  /-- Everybody else stays or moves across one link. -/
  others : ∀ l p, l ≠ a → l ≠ b → m.physical l = some p →
    ∃ q, m'.physical l = some q ∧ (q = p ∨ t.adjacent p q)
  /-- The swaps are those of a plan, with the meeting point on its path. Nothing happens off the
  path, and the anchor stays if the mover comes all the way. -/
  planned : ∃ plan : r.Plan g t m a b, swaps = plan.swaps ∧ plan.stop + 1 < plan.path.length ∧
    (∀ p ∉ plan.path, m'.logical p = m.logical p) ∧
    (r.meeting = .truncate → m'.physical plan.anchor = m.physical plan.anchor)

theorem Plan.contract (plan : r.Plan g t m a b) (hab : a ≠ b) {pa pb : PhysicalQubit}
    (ha : m.physical a = some pa) (hb : m.physical b = some pb) :
    r.Contract g t m a b plan.swaps (m.swaps plan.swaps) where
  length pa' pb' ha' hb' := plan.distance_eq hab ha' hb'
  alongLinks := (plan.bringsTogether hab ha hb).alongLinks
  performed := rfl
  linked := ⟨_, _, Layout.physical_swaps_eq_some_iff.mpr ⟨pa, ha, rfl⟩,
    Layout.physical_swaps_eq_some_iff.mpr ⟨pb, hb, rfl⟩, (plan.bringsTogether hab ha hb).linked⟩
  others l p hla hlb hp := by
    refine ⟨_, Layout.physical_swaps_eq_some_iff.mpr ⟨p, hp, rfl⟩, ?_⟩
    -- nobody else sits where the two qubits do
    have hne : ∀ {k : LogicalQubit} {q : PhysicalQubit}, l ≠ k → m.physical k = some q → p ≠ q := by
      rintro k q hlk hq rfl
      exact hlk (Layout.physical_inj hp hq)
    rcases plan.places ha hb with ⟨rfl, rfl⟩ | ⟨rfl, rfl⟩
    · exact plan.carry_eq_or_adjacent (hne hla ha) (hne hlb hb)
    · exact plan.carry_eq_or_adjacent (hne hlb hb) (hne hla ha)
  planned := by
    refine ⟨plan, rfl, plan.stop_lt hab, fun p hp => ?_, fun htruncate => ?_⟩
    · have hstay : carry plan.swaps p = p := carry_splitSwaps_of_notMem hp
      have hlogical := m.logical_swaps_carry plan.swaps p
      rwa [hstay] at hlogical
    · rw [plan.anchorPlace, Layout.physical_swaps_eq_some_iff]
      exact ⟨_, plan.anchorPlace, plan.carry_target hab htruncate⟩

/-- **The contract is kept**: on a connected device routing succeeds for any two different qubits
that are placed on it, whatever the strategies, the interactions and the layout. -/
theorem route_contract (r : Router) (g : InteractionGraph) (hconn : t.Connected) (hab : a ≠ b)
    {pa pb : PhysicalQubit} (ha : m.physical a = some pa) (hb : m.physical b = some pb)
    (hpa : pa ∈ t.qubits) (hpb : pb ∈ t.qubits) :
    ∃ swaps m', r.route g t m a b = .ok (swaps, m') ∧ r.Contract g t m a b swaps m' := by
  obtain ⟨plan⟩ := exists_plan r g hconn ha hb hpa hpb
  exact ⟨plan.swaps, m.swaps plan.swaps, plan.route_eq hab ha hb, plan.contract hab ha hb⟩

/-- On a line of five, `a` is called to `b` over the place of `d`. Since `b` has met its neighbour
`c` more often than `a`, the score lets `b` stay and `d` step aside. -/
theorem route_contract_line :
    let r : Router := ⟨.distanceToCenter, .edgeScore⟩
    let g := InteractionGraph.empty.afterAll [.recordNamed "a" "b", .recordNamed "b" "c",
      .recordNamed "c" "b", .addQubit "d"]
    let t := Topology.linear 5
    let m := (((Layout.empty.assign ⟨0⟩ ⟨0⟩).assign ⟨1⟩ ⟨3⟩).assign ⟨2⟩ ⟨4⟩).assign ⟨3⟩ ⟨1⟩
    let swaps : List Swap := [(⟨0⟩, ⟨1⟩), (⟨1⟩, ⟨2⟩)]
    t.Connected ∧ m.physical ⟨0⟩ = some ⟨0⟩ ∧ m.physical ⟨1⟩ = some ⟨3⟩ ∧
      r.route g t m ⟨0⟩ ⟨1⟩ = .ok (swaps, m.swaps swaps) ∧
      r.Contract g t m ⟨0⟩ ⟨1⟩ swaps (m.swaps swaps) := by
  intro r g t m swaps
  have hconn : t.Connected := by decide +kernel
  have ha : m.physical ⟨0⟩ = some ⟨0⟩ := by decide +kernel
  have hb : m.physical ⟨1⟩ = some ⟨3⟩ := by decide +kernel
  have hswaps : (r.route g t m ⟨0⟩ ⟨1⟩).toOption.map (·.1) = some swaps := by decide +kernel
  obtain ⟨swaps', m', hroute, hcontract⟩ :=
    route_contract r g hconn (by decide) ha hb (by decide +kernel) (by decide +kernel)
  rw [hroute] at hswaps
  obtain rfl : swaps' = swaps := Option.some.inj hswaps
  obtain rfl := hcontract.performed
  exact ⟨hconn, ha, hb, hroute, hcontract⟩

end Router

end QubitRouting
