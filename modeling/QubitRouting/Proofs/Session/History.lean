import QubitRouting.Proofs.Session.Reachable
import QubitRouting.Topology.Presets

/-!
# The history of a session

A session is what requests made of it, those that succeeded and those that failed. Of this history
two things are remembered here: the moment at which the qubits were placed (`PlacedAt`), and the
swaps that the requests to route returned (`routes`). They say all about a session that is placed:

* **the graph is frozen** (`InteractionGraph.GrownTo`): interactions, weights and usage stay as they
  were, and a late declaration only puts a new qubit at the end;
* **the layouts are the initial one, and the initial one after all swaps** (`placed_afterAll`), and
  both place the qubits of that moment and no others;
* **the counters count** the requests that were routed and the swaps that this took
  (`counters_afterAll`).

Each of them is first said of one request and then of any number of them.
-/

set_option autoImplicit false

namespace QubitRouting

namespace Session

variable {s s' : Session} {c : Call} {swaps? : Option (List Swap)}

/-! ## Requests in a row -/

/-- The session after requests, one after the other. -/
def afterAll (s : Session) (cs : List Call) : Session := cs.foldl after s

@[simp] theorem afterAll_nil (s : Session) : s.afterAll [] = s := rfl

@[simp] theorem afterAll_cons (s : Session) (c : Call) (cs : List Call) :
    s.afterAll (c :: cs) = (s.after c).afterAll cs := rfl

theorem afterAll_append (s : Session) (cs ds : List Call) :
    s.afterAll (cs ++ ds) = (s.afterAll cs).afterAll ds :=
  List.foldl_append

/-- The lists of swaps that the requests return, in order. -/
def routes (s : Session) : List Call → List (List Swap)
  | [] => []
  | c :: cs => (s.swapsReturned? c).toList ++ (s.after c).routes cs

theorem routes_append (s : Session) (cs ds : List Call) :
    s.routes (cs ++ ds) = s.routes cs ++ (s.afterAll cs).routes ds := by
  induction cs generalizing s with
  | nil => rfl
  | cons c cs ih => rw [List.cons_append, routes, routes, ih, List.append_assoc, afterAll_cons]

/-! ## The counters -/

theorem Outcome.counters (h : Outcome s c swaps? s') :
    s'.twoQubitOps = s.twoQubitOps + swaps?.toList.length ∧
      s'.swaps = s.swaps + swaps?.toList.flatten.length := by
  cases h with
  | nothing c => exact ⟨rfl, rfl⟩
  | declareQubit name => exact ⟨rfl, rfl⟩
  | declareBit name => exact ⟨rfl, rfl⟩
  | record hopen => exact ⟨rfl, rfl⟩
  | place hopen h => exact ⟨rfl, rfl⟩
  | route h => simp [routed]

/-- **The counters count the requests that were routed, and their swaps.** -/
theorem counters_afterAll (s : Session) (cs : List Call) :
    (s.afterAll cs).twoQubitOps = s.twoQubitOps + (s.routes cs).length ∧
      (s.afterAll cs).swaps = s.swaps + (s.routes cs).flatten.length := by
  induction cs generalizing s with
  | nil => exact ⟨rfl, rfl⟩
  | cons c cs ih =>
    obtain ⟨hops, hswaps⟩ := (outcome_after s c).counters
    rw [afterAll_cons, (ih _).1, (ih _).2, hops, hswaps, routes, List.length_append,
      List.flatten_append, List.length_append]
    exact ⟨Nat.add_assoc _ _ _, Nat.add_assoc _ _ _⟩

/-! ## Sessions that are placed -/

theorem swaps_append (m : Layout) (ss ss' : List Swap) :
    m.swaps (ss ++ ss') = (m.swaps ss).swaps ss' :=
  List.foldl_append

/-- Of a session that is placed, a request moves at most the present layout, and by the swaps that
it returns. -/
theorem Outcome.placed (h : Outcome s c swaps? s') {placed : Placed}
    (hplaced : s.placed = some placed) :
    s'.placed = some { placed with current := placed.current.swaps swaps?.toList.flatten } ∧
      s.graph.GrownTo s'.graph := by
  cases h with
  | nothing c => exact ⟨hplaced, .refl _⟩
  | declareQubit name => exact ⟨hplaced, s.graph.grownTo_addQubit name⟩
  | declareBit name => exact ⟨hplaced, s.graph.grownTo_addBit name⟩
  | record hopen => exact absurd (hplaced.symm.trans hopen) (by simp)
  | place hopen h => exact absurd (hplaced.symm.trans hopen) (by simp)
  | route h =>
    obtain ⟨la, lb, -, -, hplaced', -⟩ := swapsBetween_eq_ok_iff.mp h
    obtain rfl := Option.some.inj (hplaced.symm.trans hplaced')
    exact ⟨by simp [routed], .refl _⟩

/-- **A session that is placed keeps its initial layout and its graph**, and all swaps that are
returned are applied to its present layout. -/
theorem placed_afterAll {placed : Placed} (h : s.placed = some placed) (cs : List Call) :
    (s.afterAll cs).placed =
        some { placed with current := placed.current.swaps (s.routes cs).flatten } ∧
      s.graph.GrownTo (s.afterAll cs).graph := by
  induction cs generalizing s placed with
  | nil => exact ⟨h, .refl _⟩
  | cons c cs ih =>
    obtain ⟨hplaced, hgraph⟩ := (outcome_after s c).placed h
    obtain ⟨hplaced', hgraph'⟩ := ih hplaced
    refine ⟨?_, hgraph.trans hgraph'⟩
    rw [afterAll_cons, hplaced', routes, List.flatten_append, swaps_append]

theorem isPlaced_iff : s.isPlaced = true ↔ ∃ placed, s.placed = some placed :=
  Option.isSome_iff_exists

theorem isPlaced_afterAll (h : s.isPlaced = true) (cs : List Call) :
    (s.afterAll cs).isPlaced = true := by
  obtain ⟨placed, hplaced⟩ := isPlaced_iff.mp h
  exact isPlaced_iff.mpr ⟨_, (placed_afterAll hplaced cs).1⟩

/-! ## The moment of placement -/

/-- The request for a placement that `cs` holds after `before` places the qubits as in `m`. -/
structure PlacedAt (s₀ : Session) (cs before : List Call) (m : Layout) : Prop where
  requested : ∃ later, cs = before ++ .place :: later
  unplaced : (s₀.afterAll before).isPlaced = false
  succeeds : (place.run.run (s₀.afterAll before)).1 = .ok m

/-- Only a request for a placement that succeeds makes a session a placed one. -/
theorem Outcome.place_of_isPlaced (h : Outcome s c swaps? s') (hopen : s.isPlaced = false)
    (hplaced : s'.isPlaced = true) : c = .place ∧ ∃ m, (Session.place.run.run s).1 = .ok m := by
  cases h with
  | nothing c => exact absurd (hopen.symm.trans hplaced) (by simp)
  | declareQubit name => exact absurd (hopen.symm.trans hplaced) (by simp)
  | declareBit name => exact absurd (hopen.symm.trans hplaced) (by simp)
  | record _ => exact absurd (hopen.symm.trans hplaced) (by simp)
  | @place m hnone h =>
    refine ⟨rfl, m, ?_⟩
    rw [place_run, hnone, h]
  | route h =>
    obtain ⟨la, lb, -, -, hplaced', -⟩ := swapsBetween_eq_ok_iff.mp h
    exact absurd (hplaced'.symm.trans (isPlaced_eq_false_iff.mp hopen)) (by simp)

/-- Every placed session was placed at some moment. -/
theorem exists_placedAt (hopen : s.isPlaced = false) {cs : List Call}
    (h : (s.afterAll cs).isPlaced = true) : ∃ before m, s.PlacedAt cs before m := by
  induction cs generalizing s with
  | nil => exact absurd (hopen.symm.trans h) (by simp)
  | cons c cs ih =>
    cases hc : (s.after c).isPlaced with
    | true =>
      obtain ⟨rfl, m, hm⟩ := (outcome_after s c).place_of_isPlaced hopen hc
      exact ⟨[], m, ⟨cs, rfl⟩, hopen, hm⟩
    | false =>
      obtain ⟨before, m, ⟨later, hcs⟩, hunplaced, hm⟩ := ih hc h
      exact ⟨c :: before, m, ⟨later, by rw [hcs, List.cons_append]⟩, hunplaced, hm⟩

/-- What returns swaps leaves a placed session. -/
theorem Outcome.isPlaced {swaps : List Swap} (h : Outcome s c (some swaps) s') :
    s'.isPlaced = true := by
  cases h
  rfl

/-- As long as nothing is placed, nothing is routed. -/
theorem routes_eq_nil {cs : List Call} (h : (s.afterAll cs).isPlaced = false) :
    s.routes cs = [] := by
  induction cs generalizing s with
  | nil => rfl
  | cons c cs ih =>
    rw [routes, ih h, List.append_nil, Option.toList_eq_nil_iff]
    cases hswaps : s.swapsReturned? c with
    | none => rfl
    | some swaps =>
      have hplaced := (hswaps ▸ outcome_after s c : Outcome s c (some swaps) _).isPlaced
      exact absurd ((isPlaced_afterAll hplaced cs).symm.trans h) (by simp)

/-- A first placement that succeeds is the one that is computed, and it is all that changes. -/
theorem after_place {m : Layout} (hopen : s.isPlaced = false)
    (h : (place.run.run s).1 = .ok m) :
    initialPlacement s.options s.graph s.topology = .ok m ∧
      s.after .place = { s with placed := some ⟨m, m⟩ } := by
  rw [isPlaced_eq_false_iff] at hopen
  rw [place_run, hopen] at h
  rw [after, place_run, hopen]
  cases hm : initialPlacement s.options s.graph s.topology with
  | error e =>
    rw [hm] at h
    cases h
  | ok layout =>
    rw [hm] at h
    obtain rfl := Except.ok.inj h
    exact ⟨rfl, rfl⟩

/-- A session that was placed has the layout of that moment, and this after all swaps since. -/
theorem PlacedAt.placed {s₀ : Session} {cs before : List Call} {m : Layout}
    (h : s₀.PlacedAt cs before m) :
    (s₀.afterAll cs).placed = some ⟨m, m.swaps (s₀.routes cs).flatten⟩ ∧
      (s₀.afterAll before).graph.GrownTo (s₀.afterAll cs).graph := by
  obtain ⟨later, rfl⟩ := h.requested
  obtain ⟨-, hplace⟩ := after_place h.unplaced h.succeeds
  -- no request before that moment returned swaps, and the one to place returns none
  have hroutes : s₀.routes (before ++ .place :: later) =
      ((s₀.afterAll before).after .place).routes later := by
    rw [routes_append, routes_eq_nil h.unplaced, routes]
    rfl
  have hplaced : ((s₀.afterAll before).after .place).placed = some ⟨m, m⟩ := by rw [hplace]
  have hgraph : ((s₀.afterAll before).after .place).graph = (s₀.afterAll before).graph := by
    rw [hplace]
  obtain ⟨hlater, hgrown⟩ := placed_afterAll hplaced later
  rw [hroutes, afterAll_append, afterAll_cons, ← hgraph]
  exact ⟨hlater, hgrown⟩

theorem isPlaced_afterAll_iff {s₀ : Session} (hopen : s₀.isPlaced = false) {cs : List Call} :
    (s₀.afterAll cs).isPlaced = true ↔ ∃ before m, s₀.PlacedAt cs before m := by
  constructor
  · exact exists_placedAt hopen
  · rintro ⟨before, m, h⟩
    exact isPlaced_iff.mpr ⟨_, h.placed.1⟩

/-! ## What the layouts place -/

/-- The layout places the first `n` qubits and no others, on different qubits of the device, and
says the same in both directions. -/
structure PlacesFirst (n : Nat) (t : Topology) (m : Layout) : Prop where
  placed : ∀ l, m.isPlaced l ↔ l.id < n
  onDevice : ∀ l p, m.physical l = some p → p ∈ t.qubits
  apart : ∀ l k p, m.physical l = some p → m.physical k = some p → l = k
  inverse : ∀ l p, m.physical l = some p ↔ m.logical p = some l

theorem placesFirst_of_fits {n : Nat} {t : Topology} {m : Layout} {g : InteractionGraph}
    (hfits : m.Fits g t) (hplaced : ∀ l, m.isPlaced l ↔ l.id < n) : PlacesFirst n t m where
  placed := hplaced
  onDevice l p hp := (hfits l p hp).2
  apart _ _ _ := Layout.physical_inj
  inverse _ _ := Layout.physical_eq_some_iff

/-- Both layouts of a placed session place the qubits that there were when it was placed. -/
theorem PlacedAt.placesFirst {t : Topology} {s₀ : Session} (hs₀ : Reachable t s₀)
    {cs before : List Call} {m : Layout} (h : s₀.PlacedAt cs before m) :
    PlacesFirst (s₀.afterAll before).graph.qubits.size t m ∧
      PlacesFirst (s₀.afterAll before).graph.qubits.size t (m.swaps (s₀.routes cs).flatten) := by
  obtain ⟨hvalid, htopology⟩ : (s₀.afterAll before).Valid ∧ (s₀.afterAll before).topology = t :=
    (hs₀.calls before).valid
  obtain ⟨hm, -⟩ := after_place h.unplaced h.succeeds
  obtain ⟨hfits, hall⟩ := Placement.initialPlacement_fits hvalid.graph hm
  rw [htopology] at hfits
  rw [InteractionGraph.length_names] at hall
  have hplaced : ∀ l, m.isPlaced l ↔ l.id < (s₀.afterAll before).graph.qubits.size := by
    intro l
    refine ⟨fun hl => ?_, hall l⟩
    obtain ⟨p, hp⟩ := Layout.isPlaced_iff.mp hl
    rw [← InteractionGraph.length_names]
    exact (hfits l p hp).1
  obtain ⟨hvalid', htopology'⟩ : (s₀.afterAll cs).Valid ∧ (s₀.afterAll cs).topology = t :=
    (hs₀.calls cs).valid
  have hcurrent : (s₀.afterAll cs).layout? = some (m.swaps (s₀.routes cs).flatten) := by
    rw [layout?, h.placed.1]
    rfl
  have hfits' := hvalid'.fits _ hcurrent
  rw [htopology'] at hfits'
  exact ⟨placesFirst_of_fits hfits hplaced,
    placesFirst_of_fits hfits' fun l => Layout.isPlaced_swaps.trans (hplaced l)⟩

/-! ## The invariant of sessions -/

/-- What is true of a session that was placed as in `m` when its graph was `g`, and whose requests
returned these swaps. -/
structure Settled (t : Topology) (g : InteractionGraph) (m : Layout) (routes : List (List Swap))
    (s : Session) : Prop where
  initial : s.initialLayout? = some m
  current : s.layout? = some (m.swaps routes.flatten)
  graph : g.GrownTo s.graph
  usage : ∀ q, s.graph.usage q = g.usage q
  incident : ∀ q, s.graph.incident q = g.incident q
  initial_places : PlacesFirst g.qubits.size t m
  current_places : PlacesFirst g.qubits.size t (m.swaps routes.flatten)

/-- **The invariant of sessions**, after any requests on any device: the counters are those of the
requests that were routed, and from the moment at which the qubits are placed the session is
settled. -/
theorem history_invariant (t : Topology) (options : PlacementOptions) (router : Router)
    (cs : List Call) :
    let s₀ := new t options router
    let s := s₀.afterAll cs
    s.metrics.twoQubitOps = (s₀.routes cs).length ∧
      s.metrics.swaps = (s₀.routes cs).flatten.length ∧
      (s.isPlaced = true ↔ ∃ before m, s₀.PlacedAt cs before m) ∧
      ∀ before m, s₀.PlacedAt cs before m →
        Settled t (s₀.afterAll before).graph m (s₀.routes cs) s := by
  intro s₀ s
  obtain ⟨hops, hswaps⟩ := counters_afterAll s₀ cs
  refine ⟨hops.trans (Nat.zero_add _), hswaps.trans (Nat.zero_add _), isPlaced_afterAll_iff rfl, ?_⟩
  intro before m h
  obtain ⟨hplaced, hgraph⟩ := h.placed
  obtain ⟨hinitial, hcurrent⟩ := h.placesFirst (.new options router)
  refine ⟨?_, ?_, hgraph, hgraph.usage, hgraph.incident, hinitial, hcurrent⟩
  · rw [initialLayout?, hplaced]
    rfl
  · rw [layout?, hplaced]
    rfl

/-- Placing fails before two qubits have met. Of the requests after it succeeds, those about the
late qubit fail, and the other two are routed by a swap each. -/
theorem history_invariant_line :
    let s₀ := new (.linear 3) ⟨false⟩ {}
    let before : List Call :=
      [.place, .addQubit "a", .recordInteraction "a" "b", .recordInteraction "c" "a"]
    let cs := before ++ [.place, .addQubit "d", .routeAdjacent "a" "d", .recordInteraction "b" "c",
      .routeAdjacent "a" "c", .place, .routeAdjacent "a" "b"]
    s₀.routes cs = [[(⟨2⟩, ⟨1⟩)], [(⟨2⟩, ⟨1⟩)]] ∧
      ∃ m, s₀.PlacedAt cs before m ∧
        Settled (.linear 3) (s₀.afterAll before).graph m (s₀.routes cs) (s₀.afterAll cs) := by
  intro s₀ before cs
  have hsome : (place.run.run (s₀.afterAll before)).1.toOption.isSome = true := by decide +kernel
  obtain ⟨m, hm⟩ := Option.isSome_iff_exists.mp hsome
  have hplaced : s₀.PlacedAt cs before m :=
    ⟨⟨_, rfl⟩, by decide +kernel, toOption_eq_some_iff.mp hm⟩
  exact ⟨by decide +kernel, m, hplaced,
    (history_invariant (.linear 3) ⟨false⟩ {} cs).2.2.2 before m hplaced⟩

end Session

end QubitRouting
