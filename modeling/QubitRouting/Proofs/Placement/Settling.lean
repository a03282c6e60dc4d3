import Mathlib.Data.List.Sort
import QubitRouting.Placement.Initial
import QubitRouting.Proofs.Layout.Moves
import QubitRouting.Proofs.Steps
import QubitRouting.Proofs.Topology.Paths

/-!
# The steps of a placement

All loops of the placement do the same thing again and again (`Placement.Settles`): a qubit that
waits gets a free place, either the nearest one to somebody who is placed or a free slot of the
device. A loop ends well after a number of such steps, or it gets stuck after some of them, when
somebody waits and no place is found (`Placement.Ends`). There is one lemma about each loop; what a
placement keeps, and when it fails, are then questions about single steps. How a placement begins is
`Placement.Outcome`.

The lemmas are about any set `known` of qubits that holds, with each qubit, its partners: a
placement that begins in the set stays in it.
-/

set_option autoImplicit false

namespace QubitRouting

namespace Placement

variable {g : InteractionGraph} {t : Topology} {m m' m'' : Layout} {l : LogicalQubit}
  {p source : PhysicalQubit} {f : Fault}

/-! ## Choosing a place -/

theorem search_of_nearestFree (h : t.nearestFree m source = .ok p) :
    ∃ r, t.graph.search source (fun q => !m.isOccupied q) = some r ∧ r.node = p := by
  unfold Topology.nearestFree at h
  split at h
  · rename_i q hq
    obtain rfl := Except.ok.inj h
    exact Option.map_eq_some_iff.mp hq
  · exact absurd h (by simp)

theorem not_isOccupied_of_nearestFree (h : t.nearestFree m source = .ok p) : ¬m.isOccupied p := by
  obtain ⟨r, hr, rfl⟩ := search_of_nearestFree h
  simpa using (FiniteGraph.search_isRoute hr).2

theorem mem_of_nearestFree (hs : source ∈ t.qubits) (h : t.nearestFree m source = .ok p) :
    p ∈ t.qubits := by
  obtain ⟨r, hr, rfl⟩ := search_of_nearestFree h
  exact Topology.mem_of_search hs hr

theorem nearestFree_eq_error (h : t.nearestFree m source = .error f) : f = .noFreeQubit source := by
  unfold Topology.nearestFree at h
  split at h
  · exact absurd h (by simp)
  · exact (Except.error.inj h).symm

theorem exists_nearestFree (hconn : t.Connected) (hs : source ∈ t.qubits)
    (hfree : ∃ p ∈ t.qubits, ¬m.isOccupied p) : ∃ q, t.nearestFree m source = .ok q := by
  obtain ⟨p, hp, hpfree⟩ := hfree
  obtain ⟨r, hr⟩ := FiniteGraph.search_isSome (p := fun q => !m.isOccupied q) (hconn source hs p hp)
    (by simpa using hpfree)
  refine ⟨r.node, ?_⟩
  rw [Topology.nearestFree, FiniteGraph.nearest, hr]
  rfl

theorem freeSlot?_eq_some (h : t.freeSlot? m = some p) : p ∈ t.qubits ∧ ¬m.isOccupied p := by
  rcases Option.or_eq_some_iff.mp h with hp | ⟨-, hp⟩
  · have hfree := List.find?_some hp
    simp only [Bool.and_eq_true, Bool.not_eq_true'] at hfree
    exact ⟨List.mem_of_find?_eq_some hp, by simp [hfree.1]⟩
  · exact ⟨List.mem_of_find?_eq_some hp, by simpa using List.find?_some hp⟩

theorem freeSlot?_ne_none (hfree : ∃ p ∈ t.qubits, ¬m.isOccupied p) : t.freeSlot? m ≠ none := by
  obtain ⟨p, hp, hpfree⟩ := hfree
  rw [← Option.isSome_iff_ne_none, Topology.freeSlot?, Option.isSome_or, Bool.or_eq_true]
  exact Or.inr (List.find?_isSome.mpr ⟨p, hp, by simpa using hpfree⟩)

/-! ## Whom the loops take up -/

theorem heaviestUnplaced_eq_some {candidates : List LogicalQubit} {seed : LogicalQubit}
    (h : heaviestUnplaced g candidates m = some seed) : seed ∈ candidates ∧ ¬m.isPlaced seed := by
  obtain ⟨c, hc, rfl⟩ := Option.map_eq_some_iff.mp h
  have hmem := List.mem_filter.mp (firstBest_mem hc)
  exact ⟨hmem.1, by simpa using hmem.2⟩

theorem heaviestUnplaced_eq_none_iff {candidates : List LogicalQubit} :
    heaviestUnplaced g candidates m = none ↔ ∀ q ∈ candidates, m.isPlaced q := by
  rw [heaviestUnplaced, Option.map_eq_none_iff, firstBest_eq_none_iff, List.filter_eq_nil_iff]
  simp

/-- Pulls are kept in order. -/
theorem insert_eq (pull : Pull) (pulls : List Pull) :
    pull.insert pulls = pulls.orderedInsert (fun p q => p.stronger q) pull := by
  induction pulls with
  | nil => rfl
  | cons q pulls ih => rw [Pull.insert, List.orderedInsert, ih]

theorem mem_foldl_insert {x : Pull} {new pulls : List Pull} :
    x ∈ new.foldl (fun pulls p => p.insert pulls) pulls ↔ x ∈ new ∨ x ∈ pulls := by
  induction new generalizing pulls with
  | nil => simp
  | cons pull new ih =>
    rw [List.foldl_cons, ih, insert_eq, List.mem_orderedInsert, List.mem_cons]
    exact ⟨fun h => h.elim (.inl ∘ .inr) (·.elim (.inl ∘ .inl) .inr),
      fun h => h.elim (·.elim (.inr ∘ .inl) .inl) (.inr ∘ .inr)⟩

theorem mem_ofSource {source : LogicalQubit} {pull : Pull} :
    pull ∈ Pull.ofSource g m source ↔
      pull.source = source ∧ (pull.target, pull.weight) ∈ g.partners source ∧
      ¬m.isPlaced pull.target := by
  rw [Pull.ofSource, List.mem_filterMap]
  constructor
  · rintro ⟨⟨target, weight⟩, hc, hpull⟩
    simp only at hpull
    split at hpull
    · exact absurd hpull (by simp)
    · rename_i hnew
      obtain rfl := Option.some.inj hpull
      exact ⟨rfl, hc, hnew⟩
  · rintro ⟨rfl, hc, hnew⟩
    exact ⟨_, hc, by simp [hnew]⟩

/-- A set of qubits that holds the partners of its members. -/
def Closed (g : InteractionGraph) (known : LogicalQubit → Prop) : Prop :=
  ∀ q, known q → ∀ c ∈ g.partners q, known c.1

/-- All pulls are on qubits of a set. -/
def PullsWithin (known : LogicalQubit → Prop) (pulls : List Pull) : Prop :=
  ∀ pull ∈ pulls, known pull.target

section Known

variable {known : LogicalQubit → Prop}

theorem PullsWithin.nil : PullsWithin known [] := fun _ hp => absurd hp List.not_mem_nil

theorem PullsWithin.addFrom (hclosed : Closed g known) {pulls : List Pull}
    (h : PullsWithin known pulls) (m : Layout) {source : LogicalQubit} (hsource : known source) :
    PullsWithin known (Pull.addFrom g m source pulls) := by
  intro pull hpull
  rcases mem_foldl_insert.mp hpull with hpull | hpull
  · exact hclosed source hsource _ (mem_ofSource.mp hpull).2.1
  · exact h pull hpull

/-! ## Steps -/

/-- **What a placement does**, one qubit at a time. -/
inductive Settles (known : LogicalQubit → Prop) (t : Topology) (m : Layout) : Layout → Prop where
  | near {l k : LogicalQubit} {source p : PhysicalQubit} (hl : known l) (hnew : ¬m.isPlaced l)
      (hsource : m.physical k = some source) (hp : t.nearestFree m source = .ok p) :
      Settles known t m (m.assign l p)
  | slot {l : LogicalQubit} {p : PhysicalQubit} (hl : known l) (hnew : ¬m.isPlaced l)
      (hp : t.freeSlot? m = some p) : Settles known t m (m.assign l p)

/-- Any number of steps. -/
abbrev Grows (known : LogicalQubit → Prop) (t : Topology) : Layout → Layout → Prop :=
  Relation.ReflTransGen (Settles known t)

/-- A qubit waits, and there is no place for it. -/
inductive Stuck (known : LogicalQubit → Prop) (t : Topology) (m : Layout) : Fault → Prop where
  | near {l k : LogicalQubit} {source : PhysicalQubit} (hl : known l) (hnew : ¬m.isPlaced l)
      (hsource : m.physical k = some source)
      (hnone : t.nearestFree m source = .error (.noFreeQubit source)) :
      Stuck known t m (.noFreeQubit source)
  | slot {l : LogicalQubit} (hl : known l) (hnew : ¬m.isPlaced l) (hnone : t.freeSlot? m = none) :
      Stuck known t m (.topologyFull l t.size)

/-- How a part of a placement ends: with a layout, or with a fault where it got stuck. -/
inductive Ends (known : LogicalQubit → Prop) (t : Topology) (m : Layout) :
    Except Fault Layout → Prop where
  | ok {m' : Layout} (hgrows : Grows known t m m') : Ends known t m (.ok m')
  | error {m' : Layout} {f : Fault} (hgrows : Grows known t m m') (hstuck : Stuck known t m' f) :
      Ends known t m (.error f)

variable {x : Except Fault Layout}

theorem Ends.after (hgrows : Grows known t m m') (h : Ends known t m' x) : Ends known t m x := by
  cases h with
  | ok hgrows' => exact .ok (hgrows.trans hgrows')
  | error hgrows' hstuck => exact .error (hgrows.trans hgrows') hstuck

theorem Ends.bind {next : Layout → Except Fault Layout} (h : Ends known t m x)
    (hnext : ∀ m', Ends known t m' (next m')) : Ends known t m (x >>= next) := by
  cases h with
  | ok hgrows => exact .after hgrows (hnext _)
  | error hgrows hstuck => exact .error hgrows hstuck

theorem Ends.grows (h : Ends known t m x) (hx : x = .ok m') : Grows known t m m' := by
  subst hx
  cases h with
  | ok hgrows => exact hgrows

theorem Ends.stuck (h : Ends known t m x) (hx : x = .error f) :
    ∃ m', Grows known t m m' ∧ Stuck known t m' f := by
  subst hx
  cases h with
  | error hgrows hstuck => exact ⟨_, hgrows, hstuck⟩

/-- Nobody who has been placed moves. -/
theorem Settles.keeps (h : Settles known t m m') {k : LogicalQubit} {q : PhysicalQubit}
    (hq : m.physical k = some q) : m'.physical k = some q := by
  have hassign : ∀ {l : LogicalQubit} {p : PhysicalQubit}, ¬m.isPlaced l → ¬m.isOccupied p →
      (m.assign l p).physical k = some q := by
    intro l p hnew hfree
    have hlk : l ≠ k := by
      rintro rfl
      exact hnew (Layout.isPlaced_iff.mpr ⟨q, hq⟩)
    rw [Layout.physical_assign_free hfree, if_neg hlk]
    exact hq
  cases h with
  | near _ hnew _ hp => exact hassign hnew (not_isOccupied_of_nearestFree hp)
  | slot _ hnew hp => exact hassign hnew (freeSlot?_eq_some hp).2

theorem Grows.keeps (h : Grows known t m m') {k : LogicalQubit} {q : PhysicalQubit}
    (hq : m.physical k = some q) : m'.physical k = some q := by
  induction h with
  | refl => exact hq
  | tail _ hstep ih => exact hstep.keeps ih

theorem Grows.isPlaced (h : Grows known t m m') (hl : m.isPlaced l) : m'.isPlaced l := by
  obtain ⟨p, hp⟩ := Layout.isPlaced_iff.mp hl
  exact Layout.isPlaced_iff.mpr ⟨p, h.keeps hp⟩

/-! ## The loops -/

/-- A qubit goes to a free slot, if there is one, and then things go on. -/
theorem Ends.placeAnywhere {next : PhysicalQubit × Layout → Except Fault Layout} (hl : known l)
    (hnew : ¬m.isPlaced l) (hnext : ∀ p, t.freeSlot? m = some p →
      Ends known t (m.assign l p) (next (p, m.assign l p))) :
    Ends known t m (t.placeAnywhere m l >>= next) := by
  rw [Topology.placeAnywhere]
  cases hslot : t.freeSlot? m with
  | none => exact .error .refl (.slot hl hnew hslot)
  | some p => exact .after (.single (.slot hl hnew hslot)) (hnext p hslot)

theorem placeAnywhere_eq_ok (h : t.placeAnywhere m l = .ok (p, m')) :
    ¬m.isOccupied p ∧ m.assign l p = m' := by
  rw [Topology.placeAnywhere] at h
  split at h
  · rename_i p' hp
    obtain ⟨rfl, rfl⟩ := Prod.mk.inj (Except.ok.inj h)
    exact ⟨(freeSlot?_eq_some hp).2, rfl⟩
  · exact absurd h (by simp)

theorem ends_placeRemaining {qs : List LogicalQubit} (hqs : ∀ q ∈ qs, known q) :
    Ends known t m (placeRemaining t qs m) := by
  induction qs generalizing m with
  | nil => exact .ok .refl
  | cons q qs ih =>
    have hrest : ∀ k ∈ qs, known k := fun k hk => hqs k (List.mem_cons_of_mem q hk)
    rw [placeRemaining]
    split
    · exact ih hrest
    · rename_i hnew
      exact .placeAnywhere (hqs q List.mem_cons_self) hnew fun p _ => ih hrest

/-- The loop over the qubits that are left leaves nobody out. -/
theorem isPlaced_of_placeRemaining {qs : List LogicalQubit} (h : placeRemaining t qs m = .ok m') :
    ∀ q ∈ qs, m'.isPlaced q := by
  induction qs generalizing m with
  | nil => exact fun q hq => absurd hq List.not_mem_nil
  | cons q qs ih =>
    -- whoever has a place when the loop comes to `qs` still has it in the end
    have hcons : ∀ {m₁ : Layout}, m₁.isPlaced q → placeRemaining t qs m₁ = .ok m' →
        ∀ k ∈ q :: qs, m'.isPlaced k := by
      intro m₁ hq hm₁ k hk
      rcases List.mem_cons.mp hk with rfl | hk
      · have hgrows : Grows (fun _ => True) t m₁ m' :=
          (ends_placeRemaining fun _ _ => trivial).grows hm₁
        exact Grows.isPlaced hgrows hq
      · exact ih hm₁ k hk
    rw [placeRemaining] at h
    split at h
    · rename_i hq
      exact hcons hq h
    · obtain ⟨⟨p, m₁⟩, hm₁, h⟩ := bind_eq_ok_iff.mp h
      obtain ⟨hfree, rfl⟩ := placeAnywhere_eq_ok hm₁
      exact hcons ((Layout.isPlaced_assign_free hfree).mpr (.inl rfl)) h

theorem ends_followPulls (hclosed : Closed g known) {fuel : Nat} {pulls : List Pull}
    (hpulls : PullsWithin known pulls) : Ends known t m (followPulls g t fuel pulls m) := by
  induction fuel generalizing pulls m with
  | zero => exact .ok .refl
  | succ fuel ih =>
    cases pulls with
    | nil => exact .ok .refl
    | cons pull pulls =>
      have hrest : PullsWithin known pulls := fun p hp => hpulls p (List.mem_cons_of_mem pull hp)
      have htarget := hpulls pull List.mem_cons_self
      rw [followPulls]
      split
      · exact ih hrest
      · rename_i hnew
        split
        · exact ih hrest
        · rename_i source hsource
          cases hp : t.nearestFree m source with
          | error f =>
            obtain rfl := nearestFree_eq_error hp
            exact .error .refl (.near htarget hnew hsource hp)
          | ok p =>
            exact .after (.single (.near htarget hnew hsource hp))
              (ih (hrest.addFrom hclosed _ htarget))

theorem ends_grow (hclosed : Closed g known) {seed : LogicalQubit} (hseed : known seed) :
    Ends known t m (grow g t m seed) :=
  ends_followPulls hclosed (PullsWithin.nil.addFrom hclosed m hseed)

theorem ends_placeGroups (hclosed : Closed g known) {candidates : List LogicalQubit}
    (hcand : ∀ q ∈ candidates, known q) {fuel : Nat} :
    Ends known t m (placeGroups g t candidates fuel m) := by
  induction fuel generalizing m with
  | zero => exact .ok .refl
  | succ fuel ih =>
    rw [placeGroups]
    split
    · exact .ok .refl
    · rename_i seed hseed
      obtain ⟨hmem, hnew⟩ := heaviestUnplaced_eq_some hseed
      exact .placeAnywhere (hcand seed hmem) hnew fun p _ =>
        (ends_grow hclosed (hcand seed hmem)).bind fun m₁ => ih

end Known

theorem countP_add_count_le {α : Type} [BEq α] [LawfulBEq α] {P Q : α → Bool} {x : α}
    (hPQ : ∀ y, P y → Q y)
    (hP : ¬P x) (hQ : Q x) (xs : List α) : xs.countP P + xs.count x ≤ xs.countP Q := by
  induction xs with
  | nil => simp
  | cons y xs ih =>
    simp only [List.countP_cons, List.count_cons]
    by_cases hy : y = x
    · simp only [hy, hP, hQ, beq_self_eq_true, if_true, Bool.false_eq_true, if_false]
      omega
    · have hyx : (y == x) = false := by simpa using hy
      have hhead : (if P y then 1 else 0) ≤ if Q y then 1 else 0 := by
        have hPQy := hPQ y
        split <;> simp_all
      simp only [hyx, Bool.false_eq_true, if_false]
      omega

/-- Every round of the loop over groups places one of the candidates at least, so that none is left
when it has taken as many rounds as there were unplaced ones. -/
theorem isPlaced_of_countP_le {candidates : List LogicalQubit} {fuel : Nat}
    (hfuel : candidates.countP (fun q => !m.isPlaced q) ≤ fuel)
    (h : placeGroups g t candidates fuel m = .ok m') : ∀ q ∈ candidates, m'.isPlaced q := by
  induction fuel generalizing m with
  | zero =>
    obtain rfl := Except.ok.inj h
    simpa using List.countP_eq_zero.mp (Nat.le_zero.mp hfuel)
  | succ fuel ih =>
    rw [placeGroups] at h
    cases hseed : heaviestUnplaced g candidates m with
    | none =>
      rw [hseed] at h
      obtain rfl := Except.ok.inj h
      exact heaviestUnplaced_eq_none_iff.mp hseed
    | some seed =>
      rw [hseed] at h
      obtain ⟨hmem, hnew⟩ := heaviestUnplaced_eq_some hseed
      obtain ⟨⟨p, m₁⟩, hm₁, hround⟩ := bind_eq_ok_iff.mp h
      obtain ⟨m₂, hm₂, hrest⟩ := bind_eq_ok_iff.mp hround
      obtain ⟨hfree, rfl⟩ := placeAnywhere_eq_ok hm₁
      have hplaced : ∀ {q}, (m.assign seed p).isPlaced q ↔ seed = q ∨ m.isPlaced q :=
        Layout.isPlaced_assign_free hfree
      have hgrows : Grows (fun _ => True) t (m.assign seed p) m₂ :=
        (ends_grow (fun _ _ _ _ => trivial) trivial).grows hm₂
      have hless : candidates.countP (fun q => !m₂.isPlaced q) + candidates.count seed ≤
          candidates.countP fun q => !m.isPlaced q := by
        apply countP_add_count_le
        · intro q hq
          simp only [Bool.not_eq_true', ← Bool.not_eq_true] at hq ⊢
          exact fun hq' => hq (Grows.isPlaced hgrows (hplaced.mpr (.inr hq')))
        · simp [Grows.isPlaced hgrows (hplaced.mpr (.inl rfl))]
        · simpa using hnew
      have hone := List.count_pos_iff.mpr hmem
      exact ih (by omega) hrest

/-- **The loop over groups leaves no candidate unplaced**: it never needs more rounds than there are
candidates. -/
theorem isPlaced_of_placeGroups {candidates : List LogicalQubit}
    (h : placeGroups g t candidates candidates.length m = .ok m') :
    ∀ q ∈ candidates, m'.isPlaced q :=
  isPlaced_of_countP_le List.countP_le_length h

/-! ## The whole placement -/

/-- The qubits that meet another one. -/
def connectedQubits (g : InteractionGraph) : List LogicalQubit := g.qubitIds.filter g.isConnected

/-- What follows when the seed has its place. -/
def fromSeed (g : InteractionGraph) (t : Topology) (seed : LogicalQubit) (m : Layout) :
    Except Fault Layout := do
  let m ← grow g t m seed
  let m ← placeGroups g t (connectedQubits g) (connectedQubits g).length m
  placeRemaining t g.qubitIds m

theorem ends_fromSeed {known : LogicalQubit → Prop} (hclosed : Closed g known)
    (hids : ∀ q ∈ g.qubitIds, known q) {seed : LogicalQubit}
    (hseed : seed ∈ connectedQubits g) : Ends known t m (fromSeed g t seed m) := by
  have hcand : ∀ q ∈ connectedQubits g, known q := fun q hq => hids q (List.mem_filter.mp hq).1
  exact (ends_grow hclosed (hcand seed hseed)).bind fun m₁ =>
    (ends_placeGroups hclosed hcand).bind fun m₂ => ends_placeRemaining hids

theorem isPlaced_of_fromSeed {seed : LogicalQubit} (h : fromSeed g t seed m = .ok m') :
    ∀ q ∈ g.qubitIds, m'.isPlaced q := by
  obtain ⟨m₁, -, h⟩ := bind_eq_ok_iff.mp h
  obtain ⟨m₂, -, h⟩ := bind_eq_ok_iff.mp h
  exact isPlaced_of_placeRemaining h

/-- **How a placement begins**, with what is left to do. -/
inductive Outcome (options : PlacementOptions) (g : InteractionGraph) (t : Topology) :
    Except Fault Layout → Prop where
  /-- Nobody meets another one, and that is not allowed or nobody is there. -/
  | refused (hnone : connectedQubits g = [])
      (hcond : options.allowIsolated = false ∨ g.qubits.size = 0) :
      Outcome options g t (.error (.noInteractions g.qubits.size))
  | isolated (hnone : connectedQubits g = []) (hallow : options.allowIsolated = true)
      (hqubits : g.qubits.size ≠ 0) : Outcome options g t (placeRemaining t g.qubitIds .empty)
  | noDevice (hsome : connectedQubits g ≠ []) (hnil : t.qubits = []) :
      Outcome options g t (.error .emptyTopology)
  | seeded {seed : LogicalQubit} {start : PhysicalQubit}
      (hseed : heaviestUnplaced g (connectedQubits g) .empty = some seed)
      (hstart : t.startingPosition (connectedQubits g).length = .ok start) :
      Outcome options g t (fromSeed g t seed (Layout.empty.assign seed start))

theorem initialPlacement_outcome (options : PlacementOptions) (g : InteractionGraph)
    (t : Topology) :
    Outcome options g t (initialPlacement options g t) := by
  cases hseed : heaviestUnplaced g (connectedQubits g) .empty with
  | none =>
    have hnone : connectedQubits g = [] := by
      by_contra hne
      obtain ⟨q, hq⟩ := List.exists_mem_of_ne_nil _ hne
      exact Layout.not_isPlaced_empty (heaviestUnplaced_eq_none_iff.mp hseed q hq)
    have heq : initialPlacement options g t =
        if !options.allowIsolated || g.qubits.size = 0 then .error (.noInteractions g.qubits.size)
        else placeRemaining t g.qubitIds .empty := by
      rw [connectedQubits] at hseed
      simp only [initialPlacement, hseed]
    rw [heq]
    split
    · rename_i hcond
      simp only [Bool.or_eq_true, Bool.not_eq_true', decide_eq_true_eq] at hcond
      exact .refused hnone hcond
    · rename_i hcond
      simp only [Bool.or_eq_true, Bool.not_eq_true', decide_eq_true_eq, not_or,
        Bool.not_eq_false] at hcond
      exact .isolated hnone hcond.1 hcond.2
  | some seed =>
    have heq : initialPlacement options g t = (do
        let start ← t.startingPosition (connectedQubits g).length
        fromSeed g t seed (Layout.empty.assign seed start)) := by
      rw [connectedQubits] at hseed ⊢
      simp only [initialPlacement, hseed]
      rfl
    rw [heq]
    by_cases hnil : t.qubits = []
    · rw [Topology.startingPosition_of_nil hnil]
      exact .noDevice (List.ne_nil_of_mem (heaviestUnplaced_eq_some hseed).1) hnil
    · obtain ⟨start, hstart⟩ := Topology.exists_startingPosition hnil (connectedQubits g).length
      rw [hstart]
      exact .seeded hseed hstart

end Placement

end QubitRouting
