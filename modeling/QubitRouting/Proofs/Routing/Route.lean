import QubitRouting.Proofs.Routing.Split
import QubitRouting.Proofs.Steps
import QubitRouting.Routing.Router

/-!
# What routing achieves

`Router.route` either finds that two qubits are linked already or moves them along a shortest path,
as the strategies plan it (`Router.Plan`, `Router.swapsFor_cases`). Whichever strategies are chosen:

* **the swaps bring the two qubits together** (`Router.brings_together`), and each of them acts on a
  link;
* **on a connected device routing does not fail** for two different qubits that are placed on it
  (`Router.exists_swapsFor`).

A strategy enters only through two facts: the mover and the anchor are the two qubits in one of the
two orders (`select_eq`), and the meeting place lies before the end of the path (`meetingPlace_le`).
-/

set_option autoImplicit false

namespace QubitRouting

variable {g : InteractionGraph} {t : Topology} {m : Layout} {a b : LogicalQubit}

theorem InteractionGraph.placeOf_eq_ok_iff {q : LogicalQubit} {p : PhysicalQubit} :
    g.placeOf m q = .ok p ↔ m.physical q = some p := by
  rw [placeOf]
  cases m.physical q <;> simp

/-! ## The strategies -/

namespace MoverStrategy

theorem select_eq {s : MoverStrategy} {c : LogicalQubit × LogicalQubit}
    (h : s.select g t m a b = .ok c) : c = (a, b) ∨ c = (b, a) := by
  cases s with
  | distanceToCenter =>
    simp only [select, bind_eq_ok_iff] at h
    obtain ⟨center, -, da, -, db, -, hc⟩ := h
    obtain rfl := Except.ok.inj hc
    split
    · exact Or.inl rfl
    · exact Or.inr rfl
  | lessConnected =>
    obtain rfl := Except.ok.inj h
    split
    · exact Or.inl rfl
    · exact Or.inr rfl

theorem exists_distanceFrom (hconn : t.Connected) {center p : PhysicalQubit} {q : LogicalQubit}
    (hc : center ∈ t.qubits) (hq : m.physical q = some p) (hp : p ∈ t.qubits) :
    ∃ d, distanceFrom g t m center q = .ok d := by
  obtain ⟨d, hd⟩ := hconn.exists_distance hp hc
  refine ⟨d, ?_⟩
  simp only [distanceFrom, bind_eq_ok_iff]
  refine ⟨p, InteractionGraph.placeOf_eq_ok_iff.mpr hq, ?_⟩
  rw [hd]

theorem exists_select (hconn : t.Connected) {pa pb : PhysicalQubit} (ha : m.physical a = some pa)
    (hb : m.physical b = some pb) (hpa : pa ∈ t.qubits) (hpb : pb ∈ t.qubits) (s : MoverStrategy) :
    ∃ c, s.select g t m a b = .ok c := by
  cases s with
  | lessConnected => exact ⟨_, rfl⟩
  | distanceToCenter =>
    obtain ⟨center, hcenter⟩ := Topology.exists_center (List.ne_nil_of_mem hpa)
    have hmem := Topology.mem_of_center?_eq_some (Topology.center_eq_ok_iff.mp hcenter)
    obtain ⟨da, hda⟩ := exists_distanceFrom (g := g) hconn hmem ha hpa
    obtain ⟨db, hdb⟩ := exists_distanceFrom (g := g) hconn hmem hb hpb
    refine ⟨if db ≤ da then (a, b) else (b, a), ?_⟩
    simp only [select, bind_eq_ok_iff]
    exact ⟨center, hcenter, da, hda, db, hdb, rfl⟩

end MoverStrategy

theorem MeetingStrategy.meetingPlace_le (s : MeetingStrategy) (path : List PhysicalQubit) :
    s.meetingPlace g t m path ≤ lastStop path := by
  cases s with
  | truncate => exact Nat.le_refl _
  | edgeScore =>
    simp only [meetingPlace]
    split
    · rename_i k score hbest
      have hmem := List.mem_reverse.mp (firstBest_mem hbest)
      exact Nat.le_of_lt_succ (List.mem_range.mp hmem)
    · exact Nat.le_refl _

/-! ## The router -/

namespace Router

/-- What swaps must do to two places so that a gate can act on the qubits that sit there. -/
structure BringsTogether (t : Topology) (swaps : List Swap) (pa pb : PhysicalQubit) : Prop where
  linked : t.adjacent (Swap.carry swaps pa) (Swap.carry swaps pb)
  alongLinks : ∀ s ∈ swaps, t.adjacent s.1 s.2

theorem BringsTogether.symm {swaps : List Swap} {pa pb : PhysicalQubit}
    (h : BringsTogether t swaps pa pb) : BringsTogether t swaps pb pa where
  linked := by
    rw [Topology.adjacent_comm]
    exact h.linked
  alongLinks := h.alongLinks

/-- Two chains of swaps along a path between two places bring these together. -/
theorem BringsTogether.of_path {path : List PhysicalQubit} {k : Nat} {pa pb : PhysicalQubit}
    (hpath : t.graph.IsPath path) (hhead : path.head? = some pa) (hlast : path.getLast? = some pb)
    (hlen : k + 1 < path.length) : BringsTogether t (splitSwaps path k) pa pb := by
  have ha := carry_splitSwaps_head hpath.nodup hlen hhead
  have hb := carry_splitSwaps_last hpath.nodup hlen hlast
  constructor
  · rw [← Topology.step_iff]
    have hstep := List.isChain_iff_getElem.mp hpath.chain k hlen
    rw [List.getElem?_eq_getElem (by omega)] at ha hb
    rwa [Option.some.inj ha, Option.some.inj hb] at hstep
  · intro s hs
    refine rel_of_mem_splitSwaps (R := fun p q => t.adjacent p q) ?_ ?_ hs
    · intro p q hpq
      rwa [Topology.adjacent_comm]
    · exact hpath.chain.imp fun p q hpq => Topology.step_iff.mp hpq

/-- What the strategies plan for two qubits: one of them is to walk from its place along a shortest
path towards the place of the other one. -/
structure Plan (r : Router) (g : InteractionGraph) (t : Topology) (m : Layout)
    (a b : LogicalQubit) where
  mover : LogicalQubit
  anchor : LogicalQubit
  source : PhysicalQubit
  target : PhysicalQubit
  path : List PhysicalQubit
  selected : r.mover.select g t m a b = .ok (mover, anchor)
  moverPlace : m.physical mover = some source
  anchorPlace : m.physical anchor = some target
  shortest : t.shortestPath source target = some path

namespace Plan

variable {r : Router}

/-- Where on the path the mover stops. -/
def stop (plan : r.Plan g t m a b) : Nat := r.meeting.meetingPlace g t m plan.path

def swaps (plan : r.Plan g t m a b) : List Swap := splitSwaps plan.path plan.stop

theorem pair (plan : r.Plan g t m a b) :
    plan.mover = a ∧ plan.anchor = b ∨ plan.mover = b ∧ plan.anchor = a := by
  rcases MoverStrategy.select_eq plan.selected with h | h
  · exact Or.inl (Prod.mk.inj h)
  · exact Or.inr (Prod.mk.inj h)

theorem source_ne_target (plan : r.Plan g t m a b) (hab : a ≠ b) : plan.source ≠ plan.target := by
  intro h
  have hsame := Layout.physical_inj plan.moverPlace (h ▸ plan.anchorPlace)
  rcases plan.pair with ⟨hm, ha⟩ | ⟨hm, ha⟩
  · exact hab (hm.symm.trans (hsame.trans ha))
  · exact hab (ha.symm.trans (hsame.symm.trans hm))

/-- The path joins the places of the two qubits, in one of the two directions. -/
theorem places (plan : r.Plan g t m a b) {pa pb : PhysicalQubit} (ha : m.physical a = some pa)
    (hb : m.physical b = some pb) :
    plan.source = pa ∧ plan.target = pb ∨ plan.source = pb ∧ plan.target = pa := by
  have hsource := plan.moverPlace
  have htarget := plan.anchorPlace
  rcases plan.pair with ⟨hm, hn⟩ | ⟨hm, hn⟩
  · rw [hm, ha] at hsource
    rw [hn, hb] at htarget
    exact Or.inl ⟨(Option.some.inj hsource).symm, (Option.some.inj htarget).symm⟩
  · rw [hm, hb] at hsource
    rw [hn, ha] at htarget
    exact Or.inr ⟨(Option.some.inj hsource).symm, (Option.some.inj htarget).symm⟩

/-- The path goes from the mover to the anchor. -/
theorem isPath (plan : r.Plan g t m a b) :
    t.graph.IsPath plan.path ∧ plan.path.head? = some plan.source ∧
      plan.path.getLast? = some plan.target :=
  Topology.isPath_of_shortestPath plan.shortest

/-- The mover stops before the end of the path. -/
theorem stop_lt (plan : r.Plan g t m a b) (hab : a ≠ b) : plan.stop + 1 < plan.path.length := by
  obtain ⟨-, hhead, hlast⟩ := plan.isPath
  have hne := plan.source_ne_target hab
  have hstop : plan.stop ≤ MeetingStrategy.lastStop plan.path := r.meeting.meetingPlace_le plan.path
  rw [MeetingStrategy.lastStop] at hstop
  -- a path between different places has two places at least
  have hlen : 2 ≤ plan.path.length := by
    cases hpath : plan.path with
    | nil => exact absurd hhead (by simp [hpath])
    | cons p ps =>
      cases ps with
      | nil =>
        rw [hpath] at hhead hlast
        exact absurd ((Option.some.inj hhead).symm.trans (Option.some.inj hlast)) hne
      | cons q ps => exact Nat.le_add_left 2 ps.length
  omega

theorem bringsTogether (plan : r.Plan g t m a b) (hab : a ≠ b) {pa pb : PhysicalQubit}
    (ha : m.physical a = some pa) (hb : m.physical b = some pb) :
    BringsTogether t plan.swaps pa pb := by
  obtain ⟨hpath, hhead, hlast⟩ := plan.isPath
  have htogether : BringsTogether t plan.swaps plan.source plan.target :=
    .of_path hpath hhead hlast (plan.stop_lt hab)
  rcases plan.places ha hb with ⟨rfl, rfl⟩ | ⟨rfl, rfl⟩
  · exact htogether
  · exact htogether.symm

/-- The plan takes one swap less than there are links between the two places. -/
theorem distance_eq (plan : r.Plan g t m a b) (hab : a ≠ b) {pa pb : PhysicalQubit}
    (ha : m.physical a = some pa) (hb : m.physical b = some pb) :
    t.distance pa pb = some (plan.swaps.length + 1) := by
  have hlen : plan.path.length - 1 = plan.swaps.length + 1 := by
    have hstop := plan.stop_lt hab
    rw [swaps, length_splitSwaps hstop]
    omega
  have hdist := Topology.distance_of_shortestPath plan.shortest
  rw [hlen] at hdist
  rcases plan.places ha hb with ⟨rfl, rfl⟩ | ⟨rfl, rfl⟩
  · exact hdist
  · rw [Topology.distance_comm]
    exact hdist

end Plan

/-- **What routing does**: nothing if the two places are linked, and else what is planned. -/
theorem swapsFor_cases {r : Router} {swaps : List Swap} (h : r.swapsFor g t m a b = .ok swaps) :
    a ≠ b ∧ ∃ pa pb, m.physical a = some pa ∧ m.physical b = some pb ∧
      (t.adjacent pa pb ∧ swaps = [] ∨ ∃ plan : r.Plan g t m a b, swaps = plan.swaps) := by
  unfold swapsFor at h
  split at h
  · exact absurd h throw_ne_ok
  rename_i hab
  simp only [bind_eq_ok_iff] at h
  obtain ⟨pa, ha, pb, hb, h⟩ := h
  rw [InteractionGraph.placeOf_eq_ok_iff] at ha hb
  refine ⟨hab, pa, pb, ha, hb, ?_⟩
  split at h
  · rename_i hlinked
    exact Or.inl ⟨hlinked, (Except.ok.inj h).symm⟩
  simp only [bind_eq_ok_iff] at h
  obtain ⟨⟨mover, anchor⟩, hselect, source, hsource, target, htarget, h⟩ := h
  rw [InteractionGraph.placeOf_eq_ok_iff] at hsource htarget
  split at h
  · exact absurd h throw_ne_ok
  rename_i path hpath
  exact Or.inr ⟨⟨mover, anchor, source, target, path, hselect, hsource, htarget, hpath⟩,
    (Except.ok.inj h).symm⟩

/-- **Routing brings two qubits together.** -/
theorem brings_together {r : Router} {swaps : List Swap} (h : r.swapsFor g t m a b = .ok swaps) :
    a ≠ b ∧ ∃ pa pb, m.physical a = some pa ∧ m.physical b = some pb ∧
      BringsTogether t swaps pa pb := by
  obtain ⟨hab, pa, pb, ha, hb, hcases⟩ := swapsFor_cases h
  refine ⟨hab, pa, pb, ha, hb, ?_⟩
  rcases hcases with ⟨hlinked, rfl⟩ | ⟨plan, rfl⟩
  · exact ⟨hlinked, fun s hs => absurd hs List.not_mem_nil⟩
  · exact plan.bringsTogether hab ha hb

/-- Where the places are linked, nothing is swapped. -/
theorem swapsFor_of_adjacent (r : Router) (hab : a ≠ b) {pa pb : PhysicalQubit}
    (ha : m.physical a = some pa) (hb : m.physical b = some pb) (hlinked : t.adjacent pa pb) :
    r.swapsFor g t m a b = .ok [] := by
  unfold swapsFor
  rw [if_neg hab]
  simp only [bind_eq_ok_iff]
  refine ⟨pa, InteractionGraph.placeOf_eq_ok_iff.mpr ha, pb,
    InteractionGraph.placeOf_eq_ok_iff.mpr hb, ?_⟩
  rw [if_pos hlinked]
  rfl

/-- **The plan is carried out**: where the places are linked, it asks for no swap. -/
theorem Plan.swapsFor_eq {r : Router} (plan : r.Plan g t m a b) (hab : a ≠ b)
    {pa pb : PhysicalQubit} (ha : m.physical a = some pa) (hb : m.physical b = some pb) :
    r.swapsFor g t m a b = .ok plan.swaps := by
  by_cases hlinked : t.adjacent pa pb
  · have hle := (FiniteGraph.distance_eq_some_iff.mp (plan.distance_eq hab ha hb)).2 1
      (FiniteGraph.leadsIn_one_iff.mpr (Topology.step_iff.mpr hlinked))
    have hnil : plan.swaps = [] := List.eq_nil_of_length_eq_zero (by omega)
    rw [hnil]
    exact swapsFor_of_adjacent r hab ha hb hlinked
  · unfold swapsFor
    rw [if_neg hab]
    simp only [bind_eq_ok_iff]
    refine ⟨pa, InteractionGraph.placeOf_eq_ok_iff.mpr ha, pb,
      InteractionGraph.placeOf_eq_ok_iff.mpr hb, ?_⟩
    rw [if_neg hlinked]
    simp only [bind_eq_ok_iff]
    refine ⟨_, plan.selected, plan.source, InteractionGraph.placeOf_eq_ok_iff.mpr plan.moverPlace,
      plan.target, InteractionGraph.placeOf_eq_ok_iff.mpr plan.anchorPlace, ?_⟩
    rw [plan.shortest]
    rfl

theorem Plan.route_eq {r : Router} (plan : r.Plan g t m a b) (hab : a ≠ b) {pa pb : PhysicalQubit}
    (ha : m.physical a = some pa) (hb : m.physical b = some pb) :
    r.route g t m a b = .ok (plan.swaps, m.swaps plan.swaps) := by
  rw [route, plan.swapsFor_eq hab ha hb]
  rfl

/-- On a connected device there is a plan for any two qubits that are placed on it. -/
theorem exists_plan (r : Router) (g : InteractionGraph) (hconn : t.Connected)
    {pa pb : PhysicalQubit}
    (ha : m.physical a = some pa) (hb : m.physical b = some pb) (hpa : pa ∈ t.qubits)
    (hpb : pb ∈ t.qubits) : Nonempty (r.Plan g t m a b) := by
  obtain ⟨⟨mover, anchor⟩, hselect⟩ :=
    MoverStrategy.exists_select (g := g) hconn ha hb hpa hpb r.mover
  -- both orders of the two qubits have their places on the device
  have hplaces : ∃ source target, m.physical mover = some source ∧ m.physical anchor = some target ∧
      source ∈ t.qubits ∧ target ∈ t.qubits := by
    rcases MoverStrategy.select_eq hselect with h | h
    · obtain ⟨rfl, rfl⟩ := Prod.mk.inj h
      exact ⟨pa, pb, ha, hb, hpa, hpb⟩
    · obtain ⟨rfl, rfl⟩ := Prod.mk.inj h
      exact ⟨pb, pa, hb, ha, hpb, hpa⟩
  obtain ⟨source, target, hsource, htarget, hs, ht⟩ := hplaces
  obtain ⟨path, hpath⟩ := hconn.exists_shortestPath hs ht
  exact ⟨⟨mover, anchor, source, target, path, hselect, hsource, htarget, hpath⟩⟩

/-- **On a connected device routing does not fail.** -/
theorem exists_swapsFor (r : Router) (hconn : t.Connected) (hab : a ≠ b) {pa pb : PhysicalQubit}
    (ha : m.physical a = some pa) (hb : m.physical b = some pb) (hpa : pa ∈ t.qubits)
    (hpb : pb ∈ t.qubits) : ∃ swaps, r.swapsFor g t m a b = .ok swaps := by
  obtain ⟨plan⟩ := exists_plan r g hconn ha hb hpa hpb
  exact ⟨plan.swaps, plan.swapsFor_eq hab ha hb⟩

end Router

end QubitRouting
