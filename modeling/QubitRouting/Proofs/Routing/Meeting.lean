import QubitRouting.Proofs.Graph.Best
import QubitRouting.Proofs.Interaction.Requests
import QubitRouting.Proofs.Interaction.Weight
import QubitRouting.Proofs.Routing.Route
import QubitRouting.Topology.Presets

/-!
# The best meeting place

With the score as strategy, the router tries every place of a path at which the two qubits can meet,
from the last one back to the first, and keeps the one whose layout has the highest score. Since
scores that are numbers are linearly ordered (`Proofs/Interaction/Weight.lean`), what it keeps is a
true maximum, and of several the one furthest along the path, where the anchor moves least
(`MeetingStrategy.IsBestStop`). The layouts that are tried are those that the route would leave, so
the route leaves one with the highest score, and it pays nothing for the choice: all meeting places
take the same number of swaps (`Router.MeetsBest`).
-/

set_option autoImplicit false

namespace QubitRouting

variable {g : InteractionGraph} {t : Topology} {m : Layout} {path : List PhysicalQubit}
  {a b : LogicalQubit}

/-- The score of the layout in which the ends of a path have met at place `k`. -/
def splitScore (g : InteractionGraph) (t : Topology) (m : Layout) (path : List PhysicalQubit)
    (k : Nat) : Weight :=
  g.score t (m.swaps (splitSwaps path k))

/-- All scores that occur on a path are numbers. -/
def ScoresAreNumbers (g : InteractionGraph) (t : Topology) (m : Layout)
    (path : List PhysicalQubit) : Prop :=
  ∀ j, j + 1 < path.length → (splitScore g t m path j).isNaN = false

namespace MeetingStrategy

/-- No meeting place on the path has a higher score than `k`, and those further along have lower
ones. -/
structure IsBestStop (g : InteractionGraph) (t : Topology) (m : Layout) (path : List PhysicalQubit)
    (k : Nat) :
    Prop where
  onPath : k + 1 < path.length
  best : ∀ j, j + 1 < path.length → ¬splitScore g t m path k < splitScore g t m path j
  last : ∀ j, j + 1 < path.length → k < j → splitScore g t m path j < splitScore g t m path k

/-- The places at which the two qubits can meet, from the last one on. -/
def stops (path : List PhysicalQubit) : List Nat := (List.range (lastStop path + 1)).reverse

theorem mem_stops (hlen : 2 ≤ path.length) {j : Nat} : j ∈ stops path ↔ j + 1 < path.length := by
  rw [stops, List.mem_reverse, List.mem_range, lastStop]
  omega

theorem pairwise_stops (path : List PhysicalQubit) : (stops path).Pairwise (· > ·) := by
  rw [stops, List.pairwise_reverse]
  exact List.pairwise_lt_range

/-- The score chooses one of the places. -/
theorem meetingPlace_edgeScore (g : InteractionGraph) (t : Topology) (m : Layout)
    (path : List PhysicalQubit) :
    ∃ score, firstBest (fun (w v : Weight) => v < w) (splitScore g t m path) (stops path) =
      some (edgeScore.meetingPlace g t m path, score) := by
  have hsome :
      firstBest (fun (w v : Weight) => v < w) (splitScore g t m path) (stops path) ≠ none := by
    rw [Ne, firstBest_eq_none_iff, stops, List.reverse_eq_nil_iff]
    simp
  obtain ⟨⟨k, score⟩, hbest⟩ := Option.ne_none_iff_exists'.mp hsome
  have hplace : edgeScore.meetingPlace g t m path = k := by
    simp only [meetingPlace]
    split
    · rename_i k' score' hfound
      exact (Prod.mk.inj (Option.some.inj (hfound.symm.trans hbest))).1
    · rename_i hnone
      exact absurd hnone hsome
  exact ⟨score, by rw [hbest, hplace]⟩

/-- **The place that is chosen is the best one**, and the last of the best. -/
theorem isBestStop_meetingPlace (hlen : 2 ≤ path.length) (hscores : ScoresAreNumbers g t m path) :
    IsBestStop g t m path (edgeScore.meetingPlace g t m path) := by
  have hlt : ∀ i ∈ stops path, ∀ j ∈ stops path,
      splitScore g t m path i < splitScore g t m path j ↔
        (splitScore g t m path i).key < (splitScore g t m path j).key := by
    intro i hi j hj
    exact Weight.lt_iff (hscores i ((mem_stops hlen).mp hi)) (hscores j ((mem_stops hlen).mp hj))
  obtain ⟨score, hbest⟩ := meetingPlace_edgeScore g t m path
  have hmax : IsFirstMax (fun k => (splitScore g t m path k).key) (stops path)
      (edgeScore.meetingPlace g t m path) :=
    firstBest_isFirstMax (fun i hi j hj => decide_eq_true_iff.trans (hlt i hi j hj)) hbest
  generalize edgeScore.meetingPlace g t m path = k at hmax
  refine ⟨(mem_stops hlen).mp hmax.mem, fun j hj => ?_, fun j hj hkj => ?_⟩
  · rw [hlt k hmax.mem j ((mem_stops hlen).mpr hj)]
    exact not_lt_of_ge (hmax.le ((mem_stops hlen).mpr hj))
  · -- the places go down, so those further along were tried before
    obtain ⟨before, after, hsplit, hbefore, -⟩ := id hmax
    have hpairwise := pairwise_stops path
    rw [hsplit, List.pairwise_append, List.pairwise_cons] at hpairwise
    have hmem := (mem_stops hlen).mpr hj
    rw [hlt j hmem k hmax.mem]
    rw [hsplit, List.mem_append, List.mem_cons] at hmem
    rcases hmem with hmem | rfl | hmem
    · exact hbefore j hmem
    · exact absurd hkj (Nat.lt_irrefl _)
    · exact absurd hkj (Nat.lt_asymm (hpairwise.2.1.1 j hmem))

end MeetingStrategy

namespace Router

/-- The swaps let the ends of a path meet where the score is best, and it makes no difference to
their number where the ends meet. -/
structure MeetsBest (g : InteractionGraph) (t : Topology) (m : Layout) (path : List PhysicalQubit)
    (swaps : List Swap) (m' : Layout) : Prop where
  long : 3 ≤ path.length
  split : ∃ k, k + 1 < path.length ∧ swaps = splitSwaps path k
  performed : m' = m.swaps swaps
  fair : ∀ j, j + 1 < path.length → (splitSwaps path j).length = swaps.length
  best : ScoresAreNumbers g t m path →
    ∀ j, j + 1 < path.length → ¬g.score t m' < splitScore g t m path j

/-- A path between places that are not linked has a place between them. -/
theorem Plan.three_le_length {r : Router} (plan : r.Plan g t m a b) (hab : a ≠ b)
    {pa pb : PhysicalQubit}
    (ha : m.physical a = some pa) (hb : m.physical b = some pb) (hfar : ¬t.adjacent pa pb) :
    3 ≤ plan.path.length := by
  have hdist := plan.distance_eq hab ha hb
  have hlen := length_splitSwaps (plan.stop_lt hab)
  have hstop := plan.stop_lt hab
  by_contra hshort
  have hnil : plan.swaps.length = 0 := by
    rw [swaps, hlen]
    omega
  rw [hnil] at hdist
  have hleads := (FiniteGraph.distance_eq_some_iff.mp hdist).1
  exact hfar (Topology.step_iff.mp (FiniteGraph.leadsIn_one_iff.mp hleads))

theorem Plan.meetsBest {s : MoverStrategy} (plan : Plan ⟨s, .edgeScore⟩ g t m a b) (hab : a ≠ b)
    (hlong : 3 ≤ plan.path.length) : MeetsBest g t m plan.path plan.swaps (m.swaps plan.swaps) where
  long := hlong
  split := ⟨plan.stop, plan.stop_lt hab, rfl⟩
  performed := rfl
  fair j hj := by
    rw [swaps, length_splitSwaps hj, length_splitSwaps (plan.stop_lt hab)]
  best hscores := (MeetingStrategy.isBestStop_meetingPlace (by omega) hscores).best

/-- **The score finds the best meeting place**: on any path of three places or more it chooses one
whose layout has the highest score, the last one if there are several. So whenever two qubits have
to be moved, the layout that is left has the highest score of all splits of the path, and each of
these takes as many swaps. On a connected device the route never fails. -/
theorem meeting_place_optimal (g : InteractionGraph) (t : Topology) (m : Layout) :
    (∀ path : List PhysicalQubit, 3 ≤ path.length → ScoresAreNumbers g t m path →
      MeetingStrategy.IsBestStop g t m path (MeetingStrategy.edgeScore.meetingPlace g t m path)) ∧
    ∀ (s : MoverStrategy) (a b : LogicalQubit) (pa pb : PhysicalQubit), a ≠ b →
      m.physical a = some pa → m.physical b = some pb → ¬t.adjacent pa pb →
      (∀ swaps m', route ⟨s, .edgeScore⟩ g t m a b = .ok (swaps, m') →
        ∃ plan : Plan ⟨s, .edgeScore⟩ g t m a b, MeetsBest g t m plan.path swaps m') ∧
      (t.Connected → pa ∈ t.qubits → pb ∈ t.qubits →
        ∃ swaps m', route ⟨s, .edgeScore⟩ g t m a b = .ok (swaps, m')) := by
  refine ⟨?_, ?_⟩
  · intro path hlong hscores
    exact MeetingStrategy.isBestStop_meetingPlace (by omega) hscores
  · intro s a b pa pb hab ha hb hfar
    refine ⟨?_, ?_⟩
    · intro swaps m' hroute
      rw [route, bind_eq_ok_iff] at hroute
      obtain ⟨swaps', hswaps, hresult⟩ := hroute
      obtain ⟨rfl, rfl⟩ := Prod.mk.inj (Except.ok.inj hresult)
      obtain ⟨-, pa', pb', ha', hb', ⟨hlinked, -⟩ | ⟨plan, rfl⟩⟩ := swapsFor_cases hswaps
      · rw [ha] at ha'
        rw [hb] at hb'
        obtain rfl := Option.some.inj ha'
        obtain rfl := Option.some.inj hb'
        exact absurd hlinked hfar
      · exact ⟨plan, plan.meetsBest hab (plan.three_le_length hab ha hb hfar)⟩
    · intro hconn hpa hpb
      obtain ⟨plan⟩ := exists_plan ⟨s, .edgeScore⟩ g hconn ha hb hpa hpb
      exact ⟨plan.swaps, m.swaps plan.swaps, plan.route_eq hab ha hb⟩

/-- On a line of five, `a` sits next to `c`, which it has met twice. It is further from the center
and so the one to move towards `b`, but the score makes it stay where it is, and `b` come all the
way. -/
theorem meeting_place_optimal_line :
    let g := InteractionGraph.empty.afterAll [.recordNamed "a" "c", .recordNamed "c" "a",
      .recordNamed "a" "b"]
    let t := Topology.linear 5
    let m := ((Layout.empty.assign ⟨0⟩ ⟨3⟩).assign ⟨1⟩ ⟨4⟩).assign ⟨2⟩ ⟨0⟩
    let path : List PhysicalQubit := [⟨3⟩, ⟨2⟩, ⟨1⟩, ⟨0⟩]
    ScoresAreNumbers g t m path ∧ MeetingStrategy.IsBestStop g t m path 0 ∧
      ∃ m', route ⟨.distanceToCenter, .edgeScore⟩ g t m ⟨0⟩ ⟨2⟩ =
        .ok ([(⟨0⟩, ⟨1⟩), (⟨1⟩, ⟨2⟩)], m') ∧
        MeetsBest g t m path [(⟨0⟩, ⟨1⟩), (⟨1⟩, ⟨2⟩)] m' := by
  intro g t m path
  have hscores : ScoresAreNumbers g t m path := by
    have hall : ∀ j < 3, (splitScore g t m path j).isNaN = false := by decide +kernel
    intro j hj
    exact hall j (Nat.lt_of_succ_lt_succ hj)
  have hplace : MeetingStrategy.edgeScore.meetingPlace g t m path = 0 := by decide +kernel
  obtain ⟨hmeeting, hrouting⟩ := meeting_place_optimal g t m
  have hbest := hmeeting path (by decide) hscores
  rw [hplace] at hbest
  have ha : m.physical ⟨0⟩ = some ⟨3⟩ := by decide +kernel
  have hb : m.physical ⟨2⟩ = some ⟨0⟩ := by decide +kernel
  obtain ⟨hleft, hreturns⟩ :=
    hrouting .distanceToCenter ⟨0⟩ ⟨2⟩ ⟨3⟩ ⟨0⟩ (by decide) ha hb (by decide +kernel)
  obtain ⟨swaps, m', hroute⟩ := hreturns (by decide +kernel) (by decide +kernel) (by decide +kernel)
  obtain ⟨plan, hmeets⟩ := hleft swaps m' hroute
  have hswaps : (route ⟨.distanceToCenter, .edgeScore⟩ g t m ⟨0⟩ ⟨2⟩).toOption.map (·.1) =
      some [(⟨0⟩, ⟨1⟩), (⟨1⟩, ⟨2⟩)] := by decide +kernel
  rw [hroute] at hswaps
  obtain rfl : swaps = [(⟨0⟩, ⟨1⟩), (⟨1⟩, ⟨2⟩)] := Option.some.inj hswaps
  -- the first of the two qubits is the mover
  have hselect :
      (MoverStrategy.distanceToCenter.select g t m ⟨0⟩ ⟨2⟩).toOption = some (⟨0⟩, ⟨2⟩) := by
    decide +kernel
  rw [plan.selected] at hselect
  obtain ⟨hmover, hanchor⟩ := Prod.mk.inj (Option.some.inj hselect)
  have hsource := plan.moverPlace
  have htarget := plan.anchorPlace
  rw [hmover, ha] at hsource
  rw [hanchor, hb] at htarget
  have hpath := plan.shortest
  rw [← Option.some.inj hsource, ← Option.some.inj htarget,
    show t.shortestPath ⟨3⟩ ⟨0⟩ = some path by decide +kernel] at hpath
  rw [← Option.some.inj hpath] at hmeets
  exact ⟨hscores, hbest, m', hroute, hmeets⟩

end Router

end QubitRouting
