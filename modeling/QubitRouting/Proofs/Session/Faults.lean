import QubitRouting.Proofs.Session.History

/-!
# What requests fail for

A request to a session that fails leaves no trace (`Atomic`). This needs an argument where a request
has changed something before it can fail: recording adds both qubits first, and only in a
well-formed graph is it certain that they then have different numbers. What a request fails for can
be said without looking into the session, from the requests before it:

* two qubits cannot be routed if one of them is unknown, if nothing has been placed yet, if they are
  the same, or if one of them was declared too late to be placed. `RouteFault` says this with the
  fault that is reported, in the order in which the reasons are looked for. On a connected device
  there is no other reason (`swapsBetween_eq_error_iff`);
* an interaction cannot be recorded once the qubits are placed, nor between a qubit and itself
  (`recordInteraction_eq_error_iff`).
-/

set_option autoImplicit false

namespace QubitRouting

/-- Among the qubits of a larger graph, those of the smaller one are the first. -/
theorem InteractionGraph.GrownTo.mem_names_iff {g g' : InteractionGraph} (h : g.GrownTo g')
    (hwf : g'.WellFormed) {name : String} {q : LogicalQubit} (hq : g'.named? name = some q) :
    name ∈ g.names ↔ q.id < g.names.length := by
  obtain ⟨late, hnames⟩ := h.names
  have hget := (named?_eq_some_iff hwf).mp hq
  constructor
  · intro hmem
    obtain ⟨i, hi, hname⟩ := List.getElem_of_mem hmem
    have hget' : g'.names[i]? = some name := by
      rw [← hnames, List.getElem?_append_left hi, List.getElem?_eq_getElem hi, hname]
    have hlt : i < g'.names.length := (List.getElem?_eq_some_iff.mp hget').1
    rw [← (List.getElem?_inj hlt hwf.named.nodup).mp (hget'.trans hget.symm)]
    exact hi
  · intro hlt
    rw [← hnames, List.getElem?_append_left hlt] at hget
    exact List.mem_of_getElem? hget

namespace Session

/-! ## Failures leave no trace -/

/-- When the step fails in a session, it leaves it as it was. -/
def Atomic {α : Type} (x : SessionM α) (s : Session) : Prop :=
  ∀ e, (x.run.run s).1 = .error e → (x.run.run s).2 = s

theorem Valid.atomic_recordInteraction {s : Session} (hs : s.Valid) (a b : String) :
    Atomic (recordInteraction a b) s := by
  intro e h
  rw [recordInteraction_run] at h ⊢
  split
  · rfl
  · rename_i hopen
    rw [if_neg hopen] at h
    obtain ⟨-, -, hgraph⟩ := InteractionGraph.recordNamed_eq_error hs.graph h
    rw [hgraph]

theorem atomic_place (s : Session) : Atomic place s := by
  intro e h
  rw [place_run] at h ⊢
  cases hplaced : s.placed with
  | some placed => rfl
  | none =>
    cases hm : initialPlacement s.options s.graph s.topology with
    | error f => rfl
    | ok layout => simp [hplaced, hm] at h

theorem atomic_routeAdjacent (a b : String) (s : Session) : Atomic (routeAdjacent a b) s := by
  intro e h
  rw [routeAdjacent_run] at h ⊢
  cases hswaps : s.swapsBetween a b with
  | error f => rfl
  | ok r => simp [hswaps] at h

theorem atomic_resolve (name : String) (s : Session) : Atomic (resolve name) s :=
  fun _ _ => (resolve_run name s).1

/-! ## Routing -/

/-- Some request has placed the qubits. -/
def HasPlaced (s₀ : Session) (cs : List Call) : Prop := ∃ before m, s₀.PlacedAt cs before m

/-- The name is that of a qubit, but was not yet when the qubits were placed. -/
def DeclaredLate (s₀ : Session) (cs : List Call) (name : String) : Prop :=
  name ∈ (s₀.afterAll cs).graph.names ∧
    ∃ before m, s₀.PlacedAt cs before m ∧ name ∉ (s₀.afterAll before).graph.names

/-- The fault that a request to route two qubits meets after the requests `cs`: the first of these
that applies. -/
inductive RouteFault (s₀ : Session) (cs : List Call) (a b : String) : Fault → Prop where
  | unknownFirst (h : a ∉ (s₀.afterAll cs).graph.names) :
      RouteFault s₀ cs a b (.unknownQubit .routing a)
  | unknownSecond (ha : a ∈ (s₀.afterAll cs).graph.names) (h : b ∉ (s₀.afterAll cs).graph.names) :
      RouteFault s₀ cs a b (.unknownQubit .routing b)
  | notPlaced (ha : a ∈ (s₀.afterAll cs).graph.names) (hb : b ∈ (s₀.afterAll cs).graph.names)
      (h : ¬s₀.HasPlaced cs) : RouteFault s₀ cs a b .notPlaced
  | selfInteraction (ha : a ∈ (s₀.afterAll cs).graph.names) (hplaced : s₀.HasPlaced cs)
      (h : a = b) : RouteFault s₀ cs a b (.selfInteraction .routing a)
  | lateFirst {q : LogicalQubit} (hb : b ∈ (s₀.afterAll cs).graph.names) (hab : a ≠ b)
      (h : s₀.DeclaredLate cs a) (hq : (s₀.afterAll cs).graph.named? a = some q) :
      RouteFault s₀ cs a b (.unplaced q a)
  | lateSecond {q : LogicalQubit} (ha : a ∈ (s₀.afterAll cs).graph.names) (hab : a ≠ b)
      (hfirst : ¬s₀.DeclaredLate cs a) (h : s₀.DeclaredLate cs b)
      (hq : (s₀.afterAll cs).graph.named? b = some q) : RouteFault s₀ cs a b (.unplaced q b)

variable {t : Topology} {s₀ : Session} {cs : List Call} {a b : String}

theorem Reachable.wellFormed (hs₀ : Reachable t s₀) (cs : List Call) :
    (s₀.afterAll cs).graph.WellFormed :=
  (hs₀.calls cs).valid.1.graph

theorem DeclaredLate.hasPlaced (h : s₀.DeclaredLate cs a) : s₀.HasPlaced cs := by
  obtain ⟨-, before, m, hat, -⟩ := h
  exact ⟨before, m, hat⟩

/-- Some fault is met exactly if one of the reasons is there. -/
theorem exists_routeFault_iff (hs₀ : Reachable t s₀) :
    (∃ e, s₀.RouteFault cs a b e) ↔
      a ∉ (s₀.afterAll cs).graph.names ∨ b ∉ (s₀.afterAll cs).graph.names ∨ ¬s₀.HasPlaced cs ∨
        a = b ∨ s₀.DeclaredLate cs a ∨ s₀.DeclaredLate cs b := by
  have hwf := hs₀.wellFormed cs
  constructor
  · rintro ⟨e, h⟩
    cases h with
    | unknownFirst h => exact .inl h
    | unknownSecond ha h => exact .inr (.inl h)
    | notPlaced ha hb h => exact .inr (.inr (.inl h))
    | selfInteraction ha hplaced h => exact .inr (.inr (.inr (.inl h)))
    | lateFirst hb hab h hq => exact .inr (.inr (.inr (.inr (.inl h))))
    | lateSecond ha hab hfirst h hq => exact .inr (.inr (.inr (.inr (.inr h))))
  · intro h
    by_cases ha : a ∈ (s₀.afterAll cs).graph.names
    swap
    · exact ⟨_, .unknownFirst ha⟩
    by_cases hb : b ∈ (s₀.afterAll cs).graph.names
    swap
    · exact ⟨_, .unknownSecond ha hb⟩
    by_cases hplaced : s₀.HasPlaced cs
    swap
    · exact ⟨_, .notPlaced ha hb hplaced⟩
    by_cases hab : a = b
    · exact ⟨_, .selfInteraction ha hplaced hab⟩
    by_cases hfirst : s₀.DeclaredLate cs a
    · obtain ⟨q, hq⟩ := (InteractionGraph.exists_named?_iff hwf).mpr ha
      exact ⟨_, .lateFirst hb hab hfirst hq⟩
    rcases h with h | h | h | h | h | h
    · exact absurd ha h
    · exact absurd hb h
    · exact absurd hplaced h
    · exact absurd h hab
    · exact absurd h hfirst
    · obtain ⟨q, hq⟩ := (InteractionGraph.exists_named?_iff hwf).mpr hb
      exact ⟨_, .lateSecond ha hab hfirst h hq⟩

/-- Of the qubits of a placed session, exactly those that were declared late have no place. -/
theorem PlacedAt.physical_eq_none_iff (hs₀ : Reachable t s₀) {before : List Call} {m : Layout}
    (h : s₀.PlacedAt cs before m) {name : String} {q : LogicalQubit}
    (hq : (s₀.afterAll cs).graph.named? name = some q) :
    (m.swaps (s₀.routes cs).flatten).physical q = none ↔ s₀.DeclaredLate cs name := by
  have hwf := hs₀.wellFormed cs
  -- whichever request placed the session, its layout has places for exactly the qubits of then
  have hplace : ∀ {before' : List Call} {m' : Layout}, s₀.PlacedAt cs before' m' →
      ((m.swaps (s₀.routes cs).flatten).physical q = none ↔
        name ∉ (s₀.afterAll before').graph.names) := by
    intro before' m' h'
    obtain ⟨hplaced, hgrown⟩ := h'.placed
    obtain rfl : m = m' :=
      congrArg Placed.initial (Option.some.inj (h.placed.1.symm.trans hplaced))
    rw [hgrown.mem_names_iff hwf hq, InteractionGraph.length_names,
      ← (h'.placesFirst hs₀).2.placed q, Layout.isPlaced_iff, ← Option.isSome_iff_exists,
      Option.not_isSome_iff_eq_none]
  constructor
  · intro hnone
    exact ⟨(InteractionGraph.exists_named?_iff hwf).mp ⟨q, hq⟩, before, m, h, (hplace h).mp hnone⟩
  · rintro ⟨-, before', m', h', hlate⟩
    exact (hplace h').mpr hlate

theorem lookup_of_notMem {s : Session} (hwf : s.graph.WellFormed) {name : String}
    (h : name ∉ s.graph.names) : s.lookup name = .error (.unknownQubit .routing name) := by
  rw [lookup]
  cases hq : s.graph.named? name with
  | none => rfl
  | some q => exact absurd ((InteractionGraph.exists_named?_iff hwf).mp ⟨q, hq⟩) h

theorem exists_lookup {s : Session} (hwf : s.graph.WellFormed) {name : String}
    (h : name ∈ s.graph.names) : ∃ q, s.graph.named? name = some q ∧ s.lookup name = .ok q := by
  obtain ⟨q, hq⟩ := (InteractionGraph.exists_named?_iff hwf).mpr h
  exact ⟨q, hq, lookup_eq_ok_iff.mpr hq⟩

theorem ne_of_named? {g : InteractionGraph} (hwf : g.WellFormed) (hab : a ≠ b)
    {la lb : LogicalQubit} (ha : g.named? a = some la) (hb : g.named? b = some lb) : la ≠ lb := by
  rintro rfl
  rw [InteractionGraph.named?_eq_some_iff hwf] at ha hb
  exact hab (Option.some.inj (ha.symm.trans hb))

/-- Once qubits are looked up and placed, only the router can fail. -/
theorem swapsBetween_eq_bind {s : Session} {la lb : LogicalQubit} {placed : Placed}
    (ha : s.lookup a = .ok la) (hb : s.lookup b = .ok lb) (hplaced : s.placed = some placed) :
    s.swapsBetween a b =
      (s.router.swapsFor s.graph s.topology placed.current la lb).map fun swaps =>
      (placed, swaps) := by
  rw [swapsBetween, ha, hb, requirePlaced_eq_ok_iff.mpr hplaced]
  show (s.router.swapsFor s.graph s.topology placed.current la lb >>= fun swaps =>
    pure (placed, swaps)) = _
  cases s.router.swapsFor s.graph s.topology placed.current la lb with
  | error e => rfl
  | ok swaps => rfl

theorem swapsFor_of_unplaced_first {r : Router} {g : InteractionGraph} {m : Layout}
    {la lb : LogicalQubit} (hab : la ≠ lb) (ha : m.physical la = none) :
    r.swapsFor g t m la lb = .error (.unplaced la (g.nameOf la)) := by
  rw [Router.swapsFor, if_neg hab, InteractionGraph.placeOf, ha]
  rfl

theorem swapsFor_of_unplaced_second {r : Router} {g : InteractionGraph} {m : Layout}
    {la lb : LogicalQubit} (hab : la ≠ lb) (ha : m.physical la ≠ none) (hb : m.physical lb = none) :
    r.swapsFor g t m la lb = .error (.unplaced lb (g.nameOf lb)) := by
  obtain ⟨p, hp⟩ := Option.ne_none_iff_exists'.mp ha
  rw [Router.swapsFor, if_neg hab, InteractionGraph.placeOf, InteractionGraph.placeOf, hp, hb]
  rfl

/-- Every fault is met when its reason is there. -/
theorem RouteFault.swapsBetween_eq (hs₀ : Reachable t s₀) (hopen : s₀.isPlaced = false) {e : Fault}
    (h : s₀.RouteFault cs a b e) : (s₀.afterAll cs).swapsBetween a b = .error e := by
  have hwf := hs₀.wellFormed cs
  cases h with
  | unknownFirst h =>
    rw [swapsBetween, lookup_of_notMem hwf h]
    rfl
  | unknownSecond ha h =>
    obtain ⟨la, -, hla⟩ := exists_lookup hwf ha
    rw [swapsBetween, hla, lookup_of_notMem hwf h]
    rfl
  | notPlaced ha hb h =>
    obtain ⟨la, -, hla⟩ := exists_lookup hwf ha
    obtain ⟨lb, -, hlb⟩ := exists_lookup hwf hb
    rw [HasPlaced, ← isPlaced_afterAll_iff hopen, Bool.not_eq_true, isPlaced_eq_false_iff] at h
    rw [swapsBetween, hla, hlb, requirePlaced, h]
    rfl
  | selfInteraction ha hplaced h =>
    subst h
    obtain ⟨la, hnamed, hla⟩ := exists_lookup hwf ha
    obtain ⟨before, m, hat⟩ := hplaced
    rw [swapsBetween_eq_bind hla hla hat.placed.1, Router.swapsFor, if_pos rfl,
      InteractionGraph.nameOf_of_named?_eq_some hwf hnamed]
    rfl
  | @lateFirst q hb hab h hq =>
    obtain ⟨lb, hnamed, hlb⟩ := exists_lookup hwf hb
    obtain ⟨before, m, hat⟩ := h.hasPlaced
    rw [swapsBetween_eq_bind (lookup_eq_ok_iff.mpr hq) hlb hat.placed.1,
      swapsFor_of_unplaced_first (ne_of_named? hwf hab hq hnamed)
        ((hat.physical_eq_none_iff hs₀ hq).mpr h),
      InteractionGraph.nameOf_of_named?_eq_some hwf hq]
    rfl
  | @lateSecond q ha hab hfirst h hq =>
    obtain ⟨la, hnamed, hla⟩ := exists_lookup hwf ha
    obtain ⟨before, m, hat⟩ := h.hasPlaced
    rw [swapsBetween_eq_bind hla (lookup_eq_ok_iff.mpr hq) hat.placed.1,
      swapsFor_of_unplaced_second (ne_of_named? hwf hab hnamed hq)
        (mt (hat.physical_eq_none_iff hs₀ hnamed).mp hfirst)
        ((hat.physical_eq_none_iff hs₀ hq).mpr h),
      InteractionGraph.nameOf_of_named?_eq_some hwf hq]
    rfl

/-- On a connected device there are no other faults. -/
theorem exists_swapsBetween (hconn : t.Connected) (hs₀ : Reachable t s₀)
    (h : ¬∃ e, s₀.RouteFault cs a b e) : ∃ r, (s₀.afterAll cs).swapsBetween a b = .ok r := by
  have hwf := hs₀.wellFormed cs
  have htopology : (s₀.afterAll cs).topology = t := (hs₀.calls cs).valid.2
  rw [exists_routeFault_iff hs₀] at h
  simp only [not_or, not_not] at h
  obtain ⟨ha, hb, hplaced, hab, hfirst, hsecond⟩ := h
  obtain ⟨la, hla, hlookupa⟩ := exists_lookup hwf ha
  obtain ⟨lb, hlb, hlookupb⟩ := exists_lookup hwf hb
  obtain ⟨before, m, hat⟩ := hplaced
  -- both qubits were declared in time, so they sit somewhere on the device
  obtain ⟨pa, hpa⟩ :=
    Option.ne_none_iff_exists'.mp (mt (hat.physical_eq_none_iff hs₀ hla).mp hfirst)
  obtain ⟨pb, hpb⟩ :=
    Option.ne_none_iff_exists'.mp (mt (hat.physical_eq_none_iff hs₀ hlb).mp hsecond)
  have honDevice := (hat.placesFirst hs₀).2.onDevice
  obtain ⟨swaps, hswaps⟩ := Router.exists_swapsFor (g := (s₀.afterAll cs).graph)
    (s₀.afterAll cs).router hconn (ne_of_named? hwf hab hla hlb) hpa hpb (honDevice _ _ hpa)
    (honDevice _ _ hpb)
  refine ⟨(⟨m, m.swaps (s₀.routes cs).flatten⟩, swaps), ?_⟩
  rw [swapsBetween_eq_bind hlookupa hlookupb hat.placed.1, htopology, hswaps]
  rfl

/-- **Routing two qubits meets exactly these faults.** -/
theorem swapsBetween_eq_error_iff (hconn : t.Connected) (hs₀ : Reachable t s₀)
    (hopen : s₀.isPlaced = false) {e : Fault} :
    (s₀.afterAll cs).swapsBetween a b = .error e ↔ s₀.RouteFault cs a b e := by
  constructor
  · intro he
    by_cases hfault : ∃ e, s₀.RouteFault cs a b e
    · obtain ⟨e', he'⟩ := hfault
      obtain rfl := Except.error.inj (he.symm.trans (he'.swapsBetween_eq hs₀ hopen))
      exact he'
    · obtain ⟨r, hr⟩ := exists_swapsBetween hconn hs₀ hfault
      exact absurd (he.symm.trans hr) (by simp)
  · exact RouteFault.swapsBetween_eq hs₀ hopen

theorem routeAdjacent_eq_error_iff {s : Session} {e : Fault} :
    ((routeAdjacent a b).run.run s).1 = .error e ↔ s.swapsBetween a b = .error e := by
  rw [routeAdjacent_run]
  cases s.swapsBetween a b with
  | error e' => simp
  | ok r => simp

/-! ## Recording -/

/-- **Recording an interaction meets exactly these faults.** -/
theorem recordInteraction_eq_error_iff {s : Session} (hs : s.Valid) {e : Fault} :
    ((recordInteraction a b).run.run s).1 = .error e ↔
      s.isPlaced = true ∧ e = .frozen a b ∨
        s.isPlaced = false ∧ a = b ∧ e = .selfInteraction .collection a := by
  rw [recordInteraction_run]
  cases s.isPlaced with
  | true => simp [eq_comm]
  | false =>
    by_cases hab : a = b
    · subst hab
      simp [InteractionGraph.recordNamed_self, eq_comm]
    · simp [InteractionGraph.recordNamed_eq hs.graph hab, hab]

/-! ## All requests -/

/-- **The faults of a session**, after any requests on a connected device: those of routing and of
recording are exactly the ones that the requests so far give reason for, and no request that fails
changes anything. -/
theorem requests_fail_exactly (hconn : t.Connected) (options : PlacementOptions) (router : Router)
    (cs : List Call) (a b : String) :
    let s₀ := new t options router
    let s := s₀.afterAll cs
    (∀ e, ((routeAdjacent a b).run.run s).1 = .error e ↔ s₀.RouteFault cs a b e) ∧
      ((∃ e, ((routeAdjacent a b).run.run s).1 = .error e) ↔
        a ∉ s.graph.names ∨ b ∉ s.graph.names ∨ ¬s₀.HasPlaced cs ∨ a = b ∨
          s₀.DeclaredLate cs a ∨ s₀.DeclaredLate cs b) ∧
      (∀ e, ((recordInteraction a b).run.run s).1 = .error e ↔
        s₀.HasPlaced cs ∧ e = .frozen a b ∨
          ¬s₀.HasPlaced cs ∧ a = b ∧ e = .selfInteraction .collection a) ∧
      Atomic (recordInteraction a b) s ∧ Atomic place s ∧ Atomic (routeAdjacent a b) s ∧
      Atomic (resolve a) s := by
  intro s₀ s
  have hs₀ : Reachable t s₀ := .new options router
  have hroute : ∀ e, ((routeAdjacent a b).run.run s).1 = .error e ↔ s₀.RouteFault cs a b e :=
    fun e => routeAdjacent_eq_error_iff.trans (swapsBetween_eq_error_iff hconn hs₀ rfl)
  have hvalid : s.Valid := (hs₀.calls cs).valid.1
  have hplaced : s.isPlaced = true ↔ s₀.HasPlaced cs := isPlaced_afterAll_iff rfl
  refine ⟨hroute, ?_, ?_, hvalid.atomic_recordInteraction a b, atomic_place s,
    atomic_routeAdjacent a b s, atomic_resolve a s⟩
  · rw [exists_congr hroute]
    exact exists_routeFault_iff hs₀
  · intro e
    rw [recordInteraction_eq_error_iff hvalid, ← hplaced, Bool.not_eq_true]

/-- A qubit that is declared after the others are placed has no place. -/
theorem requests_fail_exactly_line :
    let s₀ := new (.linear 3) {} {}
    let cs : List Call := [.recordInteraction "a" "b", .place, .addQubit "c"]
    (Topology.linear 3).Connected ∧
      ((routeAdjacent "a" "c").run.run (s₀.afterAll cs)).1 = .error (.unplaced ⟨2⟩ "c") ∧
      s₀.RouteFault cs "a" "c" (.unplaced ⟨2⟩ "c") := by
  intro s₀ cs
  have hconn : (Topology.linear 3).Connected := by decide +kernel
  have hfails :
      ((routeAdjacent "a" "c").run.run (s₀.afterAll cs)).1 = .error (.unplaced ⟨2⟩ "c") := by
    decide +kernel
  exact ⟨hconn, hfails, ((requests_fail_exactly hconn {} {} cs "a" "c").1 _).mp hfails⟩

end Session

end QubitRouting
