import QubitRouting.Proofs.Placement.Total
import QubitRouting.Proofs.Routing.Route
import QubitRouting.Session

/-!
# Sessions and what is always true of them

A session changes through six requests. What each of them can do and return is said once
(`Session.Outcome`; in `Session.Change` it is open which request it was), and `Reachable t s` holds
of every session `s` on device `t` that some requests, successful or not, lead to. Two facts are
true of all of these (`Reachable.valid`): the interaction graph is well formed, and the present
layout, if there is one, places qubits of the graph on qubits of the device.
-/

set_option autoImplicit false

namespace QubitRouting

namespace Session

/-! ## The requests, run -/

theorem addQubit_run (name : String) (s : Session) : (addQubit name).run.run s =
    (.ok (s.graph.addQubit name).1, { s with graph := (s.graph.addQubit name).2 }) := rfl

theorem addBit_run (name : String) (s : Session) : (addBit name).run.run s =
    (.ok (s.graph.addBit name).1, { s with graph := (s.graph.addBit name).2 }) := rfl

theorem recordInteraction_run (a b : String) (s : Session) : (recordInteraction a b).run.run s =
    if s.isPlaced then (.error (.frozen a b), s)
    else ((s.graph.recordNamed a b).1, { s with graph := (s.graph.recordNamed a b).2 }) := by
  rw [recordInteraction, run_get_bind]
  obtain ⟨result, graph⟩ := s.graph.recordNamed a b
  cases s.isPlaced with
  | true => rfl
  | false =>
    cases result with
    | error e => rfl
    | ok i => rfl

theorem place_run (s : Session) : place.run.run s =
    match s.placed, initialPlacement s.options s.graph s.topology with
    | some placed, _ => (.ok placed.current, s)
    | none, .error e => (.error e, s)
    | none, .ok layout => (.ok layout, { s with placed := some ⟨layout, layout⟩ }) := by
  rw [place, run_get_bind]
  cases s.placed with
  | some placed => rfl
  | none =>
    simp only [run_liftM_bind]
    cases initialPlacement s.options s.graph s.topology with
    | error e => rfl
    | ok layout => rfl

/-- The swaps that bring two named qubits together, with the placement that they apply to. -/
def swapsBetween (s : Session) (a b : String) : Except Fault (Placed × List Swap) := do
  let a ← s.lookup a
  let b ← s.lookup b
  let placed ← s.requirePlaced
  let swaps ← s.router.swapsFor s.graph s.topology placed.current a b
  return (placed, swaps)

/-- The session after swaps of a gate. -/
def routed (s : Session) (placed : Placed) (swaps : List Swap) : Session :=
  { s with
    placed := some { placed with current := placed.current.swaps swaps }
    twoQubitOps := s.twoQubitOps + 1
    swaps := s.swaps + swaps.length }

theorem routeAdjacent_run (a b : String) (s : Session) : (routeAdjacent a b).run.run s =
    match s.swapsBetween a b with
    | .error e => (.error e, s)
    | .ok (placed, swaps) => (.ok swaps, s.routed placed swaps) := by
  rw [routeAdjacent, run_get_bind, run_liftM_bind, swapsBetween]
  cases s.lookup a with
  | error e => rfl
  | ok la =>
    simp only [run_liftM_bind]
    cases s.lookup b with
    | error e => rfl
    | ok lb =>
      dsimp only
      cases s.requirePlaced with
      | error e => rfl
      | ok placed =>
        simp only [Router.route]
        cases h : s.router.swapsFor s.graph s.topology placed.current la lb with
        | error e => simp [bind, Except.bind, h]
        | ok swaps => simp [bind, Except.bind, h, pure, Except.pure, routed]; rfl

/-- Where a named qubit sits at present. -/
def whereIs (s : Session) (name : String) : Option PhysicalQubit :=
  (s.graph.named? name).bind fun q => s.layout?.bind (·.physical q)

theorem whereIs_eq_some_iff {s : Session} {name : String} {p : PhysicalQubit} :
    s.whereIs name = some p ↔
      ∃ q m, s.graph.named? name = some q ∧ s.layout? = some m ∧ m.physical q = some p := by
  rw [whereIs, Option.bind_eq_some_iff]
  refine exists_congr fun q => ?_
  rw [Option.bind_eq_some_iff]
  exact ⟨fun ⟨hq, m, hm, hp⟩ => ⟨m, hq, hm, hp⟩, fun ⟨m, hq, hm, hp⟩ => ⟨hq, m, hm, hp⟩⟩

theorem resolve_run (name : String) (s : Session) :
    ((resolve name).run.run s).2 = s ∧
      ∀ p, ((resolve name).run.run s).1 = .ok p ↔ s.whereIs name = some p := by
  rw [resolve, run_get_bind, run_liftM_bind, lookup, whereIs, layout?]
  cases s.graph.named? name with
  | none => exact ⟨rfl, fun p => by simp⟩
  | some q =>
    simp only [run_liftM_bind, requirePlaced]
    cases s.placed with
    | none => exact ⟨rfl, fun p => by simp⟩
    | some placed =>
      simp only [Option.map_some, Option.bind_some]
      cases placed.current.physical q with
      | none =>
        refine ⟨rfl, fun p => ⟨fun h => ?_, fun h => ?_⟩⟩
        · cases h
        · cases h
      | some p =>
        refine ⟨rfl, fun p' => ⟨fun h => ?_, fun h => ?_⟩⟩
        · cases h
          rfl
        · cases h
          rfl

theorem gives_resolve {name : String} {s s' : Session} {p : PhysicalQubit} :
    Gives (resolve name) s p s' ↔ s.whereIs name = some p ∧ s' = s := by
  obtain ⟨hstate, hvalue⟩ := resolve_run name s
  rw [Gives, ← hvalue, Prod.ext_iff]
  refine and_congr_right fun _ => ?_
  rw [hstate]
  exact eq_comm

theorem isPlaced_eq_false_iff {s : Session} : s.isPlaced = false ↔ s.placed = none := by
  rw [isPlaced, Option.isSome_eq_false_iff, Option.isNone_iff_eq_none]

/-! ## What can happen to a session -/

/-- A request to a session. -/
inductive Call where
  | addQubit (name : String)
  | addBit (name : String)
  | recordInteraction (a b : String)
  | place
  | routeAdjacent (a b : String)
  | resolve (name : String)
deriving DecidableEq, Repr

/-- The session after a request, whether it succeeded or not. -/
def after (s : Session) : Call → Session
  | .addQubit name => ((Session.addQubit name).run.run s).2
  | .addBit name => ((Session.addBit name).run.run s).2
  | .recordInteraction a b => ((Session.recordInteraction a b).run.run s).2
  | .place => (Session.place.run.run s).2
  | .routeAdjacent a b => ((Session.routeAdjacent a b).run.run s).2
  | .resolve name => ((Session.resolve name).run.run s).2

/-- The sessions on a device that requests lead to. -/
inductive Reachable (t : Topology) : Session → Prop where
  | new (options : PlacementOptions) (router : Router) : Reachable t (.new t options router)
  | call {s : Session} (c : Call) : Reachable t s → Reachable t (s.after c)

/-- The swaps that a request returns. Only a request to route that succeeds returns a list of
them. -/
def swapsReturned? (s : Session) : Call → Option (List Swap)
  | .routeAdjacent a b => ((Session.routeAdjacent a b).run.run s).1.toOption
  | .addQubit _ | .addBit _ | .recordInteraction _ _ | .place | .resolve _ => none

/-- What a request does, with the swaps that it returns. -/
inductive Outcome (s : Session) : Call → Option (List Swap) → Session → Prop where
  | nothing (c : Call) : Outcome s c none s
  | declareQubit (name : String) :
      Outcome s (.addQubit name) none { s with graph := (s.graph.addQubit name).2 }
  | declareBit (name : String) :
      Outcome s (.addBit name) none { s with graph := (s.graph.addBit name).2 }
  | record {a b : String} (hopen : s.placed = none) :
      Outcome s (.recordInteraction a b) none { s with graph := (s.graph.recordNamed a b).2 }
  | place {layout : Layout} (hopen : s.placed = none)
      (h : initialPlacement s.options s.graph s.topology = .ok layout) :
      Outcome s .place none { s with placed := some ⟨layout, layout⟩ }
  | route {a b : String} {placed : Placed} {swaps : List Swap}
      (h : s.swapsBetween a b = .ok (placed, swaps)) :
      Outcome s (.routeAdjacent a b) (some swaps) (s.routed placed swaps)

theorem outcome_after (s : Session) (c : Call) : Outcome s c (s.swapsReturned? c) (s.after c) := by
  cases c with
  | addQubit name => exact .declareQubit name
  | addBit name => exact .declareBit name
  | recordInteraction a b =>
    rw [swapsReturned?, after, recordInteraction_run]
    cases hp : s.isPlaced with
    | true => exact .nothing _
    | false => exact .record (isPlaced_eq_false_iff.mp hp)
  | place =>
    rw [swapsReturned?, after, place_run]
    cases hp : s.placed with
    | some placed => exact .nothing _
    | none =>
      cases hm : initialPlacement s.options s.graph s.topology with
      | error e => exact .nothing _
      | ok layout => exact .place hp hm
  | routeAdjacent a b =>
    rw [swapsReturned?, after, routeAdjacent_run]
    cases hr : s.swapsBetween a b with
    | error e => exact .nothing _
    | ok r =>
      have hroute : s.swapsBetween a b = .ok (r.1, r.2) := hr
      exact .route hroute
  | resolve name =>
    rw [swapsReturned?, after, (resolve_run name s).1]
    exact .nothing _

/-- What some request does. -/
def Change (s s' : Session) : Prop := ∃ c swaps?, Outcome s c swaps? s'

theorem lookup_eq_ok_iff {s : Session} {name : String} {q : LogicalQubit} :
    s.lookup name = .ok q ↔ s.graph.named? name = some q := by
  rw [lookup]
  cases s.graph.named? name with
  | none => simp
  | some q' => simp

theorem requirePlaced_eq_ok_iff {s : Session} {placed : Placed} :
    s.requirePlaced = .ok placed ↔ s.placed = some placed := by
  rw [requirePlaced]
  cases s.placed with
  | none => simp
  | some placed' => simp

theorem swapsBetween_eq_ok_iff {s : Session} {a b : String} {placed : Placed} {swaps : List Swap} :
    s.swapsBetween a b = .ok (placed, swaps) ↔
      ∃ la lb, s.graph.named? a = some la ∧ s.graph.named? b = some lb ∧ s.placed = some placed ∧
        s.router.swapsFor s.graph s.topology placed.current la lb = .ok swaps := by
  simp only [swapsBetween, bind_eq_ok_iff, lookup_eq_ok_iff, requirePlaced_eq_ok_iff]
  constructor
  · intro ⟨la, ha, lb, hb, placed', hplaced, swaps', hswaps, h⟩
    obtain ⟨rfl, rfl⟩ := Prod.mk.inj (Except.ok.inj h)
    exact ⟨la, lb, ha, hb, hplaced, hswaps⟩
  · intro ⟨la, lb, ha, hb, hplaced, hswaps⟩
    exact ⟨la, ha, lb, hb, placed, hplaced, swaps, hswaps, rfl⟩

/-! ## What is always true -/

/-- The graph is well formed, and the present layout fits. -/
structure Valid (s : Session) : Prop where
  graph : s.graph.WellFormed
  fits : ∀ m, s.layout? = some m → m.Fits s.graph s.topology

theorem valid_new (t : Topology) (options : PlacementOptions) (router : Router) :
    (new t options router).Valid where
  graph := InteractionGraph.wellFormed_empty
  fits _ h := absurd h (by simp [new, layout?])

/-- Swaps along links keep a layout on the device. -/
theorem fits_swaps {g : InteractionGraph} {t : Topology} {m : Layout} {swaps : List Swap}
    (h : m.Fits g t) (hlinks : ∀ s ∈ swaps, t.adjacent s.1 s.2) : (m.swaps swaps).Fits g t := by
  intro l p hp
  obtain ⟨p₀, hp₀, rfl⟩ := Layout.physical_swaps_eq_some_iff.mp hp
  refine ⟨(h l p₀ hp₀).1, ?_⟩
  have hmem := (h l p₀ hp₀).2
  clear hp hp₀
  -- A swap along a link sends qubits of the device to qubits of the device.
  induction swaps generalizing p₀ with
  | nil => exact hmem
  | cons s swaps ih =>
    refine ih (fun s' hs' => hlinks s' (List.mem_cons_of_mem s hs')) (s.perm p₀) ?_
    obtain ⟨h₁, h₂, -⟩ := Topology.joins_of_adjacent (hlinks s List.mem_cons_self)
    rw [Swap.perm, Equiv.swap_apply_def]
    split
    · exact h₂
    · split
      · exact h₁
      · exact hmem

/-- A larger graph keeps a layout fitting. -/
theorem fits_mono {g g' : InteractionGraph} {t : Topology} {m : Layout} (h : m.Fits g t)
    (hle : g.names.length ≤ g'.names.length) : m.Fits g' t := by
  intro l p hp
  obtain ⟨hl, hp⟩ := h l p hp
  exact ⟨by omega, hp⟩

theorem Valid.change {s s' : Session} (h : s.Valid) (hc : Change s s') :
    s'.Valid ∧ s'.topology = s.topology := by
  obtain ⟨c, swaps?, hc⟩ := hc
  refine ⟨?_, by cases hc <;> rfl⟩
  cases hc with
  | nothing => exact h
  | declareQubit name =>
    refine ⟨h.graph.addQubit name, fun m hm => fits_mono (h.fits m hm) ?_⟩
    rw [InteractionGraph.names_addQubit h.graph]
    exact (prefix_withName _ _).length_le
  | declareBit name =>
    refine ⟨h.graph.addBit name, fun m hm => fits_mono (h.fits m hm) ?_⟩
    rw [InteractionGraph.names_addBit]
  | record hopen =>
    -- interactions are recorded before there is a layout
    refine ⟨h.graph.recordNamed _ _, fun m hm => ?_⟩
    rw [layout?, hopen] at hm
    exact absurd hm (by simp)
  | place hopen hm =>
    refine ⟨h.graph, fun m hm' => ?_⟩
    obtain rfl := Option.some.inj hm'
    exact (Placement.initialPlacement_fits h.graph hm).1
  | @route a b placed swaps hroute =>
    obtain ⟨la, lb, -, -, hplaced, hswaps⟩ := swapsBetween_eq_ok_iff.mp hroute
    obtain ⟨-, pa, pb, -, -, htogether⟩ := Router.brings_together hswaps
    refine ⟨h.graph, fun m hm => ?_⟩
    obtain rfl := Option.some.inj hm
    refine fits_swaps (h.fits placed.current ?_) htogether.alongLinks
    rw [layout?, hplaced]
    rfl

theorem Reachable.valid {t : Topology} {s : Session} (h : Reachable t s) :
    s.Valid ∧ s.topology = t := by
  induction h with
  | new options router => exact ⟨valid_new t options router, rfl⟩
  | call c _ ih =>
    obtain ⟨hvalid, htopology⟩ := ih.1.change ⟨c, _, outcome_after _ c⟩
    exact ⟨hvalid, htopology.trans ih.2⟩

theorem Reachable.calls {t : Topology} {s : Session} (h : Reachable t s) (cs : List Call) :
    Reachable t (cs.foldl after s) := by
  induction cs generalizing s with
  | nil => exact h
  | cons c cs ih => exact ih (h.call c)

end Session

end QubitRouting
