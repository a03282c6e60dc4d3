import QubitRouting.Proofs.Graph.ShortestPaths
import QubitRouting.Proofs.Interaction.Usage
import QubitRouting.Proofs.Placement.Settling
import QubitRouting.Topology.Presets

/-!
# The strongest interaction goes first

What a placement does between a seed and the end of its component. The loop is kept with its
history, the placings (`placings`, `followPulls_eq`), and each of them is judged where it is made
(`Placing.Apt`): it follows an interaction that no other one with a placed and an unplaced end
exceeds, and it takes a free place that is as near as any to the qubit that pulls.

The queue of the loop holds too much, pulls on qubits that have been placed meanwhile and several
pulls on one qubit. That does no harm: what counts is that it is in order and that no interaction
between a placed and an unplaced qubit is missing from it (`Pulling`). Every interaction pulls at
most once from each of its ends, so the loop comes to the end of its queue, and then no interaction
leads out of the placed qubits any more.
-/

set_option autoImplicit false

namespace QubitRouting

variable {g : InteractionGraph} {t : Topology} {m m' : Layout} {a b l seed : LogicalQubit}
  {p : PhysicalQubit}

/-! ## Components -/

/-- One end is placed and the other one is not. -/
def Interaction.Crosses (e : Interaction) (m : Layout) : Prop :=
  m.isPlaced e.first ≠ m.isPlaced e.second

theorem Interaction.Crosses.exists_joins {e : Interaction} (h : e.Crosses m) :
    ∃ a b, e.joins a b ∧ m.isPlaced a ∧ ¬m.isPlaced b := by
  unfold Crosses at h
  cases hfirst : m.isPlaced e.first with
  | true =>
    rw [hfirst] at h
    exact ⟨e.first, e.second, InteractionGraph.joins_iff.mpr (.inl rfl), hfirst, h.symm⟩
  | false =>
    rw [hfirst] at h
    exact ⟨e.second, e.first,
      InteractionGraph.joins_iff.mpr (.inr rfl), by simpa using h.symm, by simp [hfirst]⟩

theorem Interaction.crosses_of_joins {e : Interaction} (h : e.joins a b) (ha : m.isPlaced a)
    (hb : ¬m.isPlaced b) : e.Crosses m := by
  unfold Crosses
  rcases InteractionGraph.joins_iff.mp h with heq | heq
  · obtain ⟨rfl, rfl⟩ := Prod.mk.inj heq
    rw [ha]
    exact Ne.symm hb
  · obtain ⟨rfl, rfl⟩ := Prod.mk.inj heq
    rw [ha]
    exact hb

namespace InteractionGraph

/-- Two qubits have an interaction. -/
def Meet (g : InteractionGraph) (a b : LogicalQubit) : Prop :=
  ∃ e ∈ g.interactions.toList, e.joins a b

/-- Interactions lead from one qubit to another: they are of the same component. -/
def Related (g : InteractionGraph) : LogicalQubit → LogicalQubit → Prop :=
  Relation.ReflTransGen g.Meet

theorem meet_ends {e : Interaction} (he : e ∈ g.interactions.toList) :
    g.Meet e.first e.second ∧ g.Meet e.second e.first :=
  ⟨⟨e, he, joins_iff.mpr (.inl rfl)⟩, ⟨e, he, joins_iff.mpr (.inr rfl)⟩⟩

/-- Every interaction has both ends in a set, or none. -/
def Respects (g : InteractionGraph) (known : LogicalQubit → Bool) : Prop :=
  ∀ e ∈ g.interactions.toList, known e.first = known e.second

instance (g : InteractionGraph) (known : LogicalQubit → Bool) : Decidable (g.Respects known) :=
  inferInstanceAs (Decidable (∀ e ∈ g.interactions.toList, known e.first = known e.second))

theorem Respects.related {known : LogicalQubit → Bool} (h : g.Respects known)
    (hab : g.Related a b) :
    known a = known b := by
  induction hab with
  | refl => rfl
  | tail _ hmeet ih =>
    obtain ⟨e, he, hjoins⟩ := hmeet
    have hends := h e he
    rcases joins_iff.mp hjoins with heq | heq
    · obtain ⟨rfl, rfl⟩ := Prod.mk.inj heq
      exact ih.trans hends
    · obtain ⟨rfl, rfl⟩ := Prod.mk.inj heq
      exact ih.trans hends.symm

/-- Every component is placed as a whole or, but for one qubit, not at all. -/
def WholeBut (g : InteractionGraph) (m : Layout) (seed : LogicalQubit) : Prop :=
  ∀ q, (∀ l, g.Related q l → m.isPlaced l) ∨ ∀ l, g.Related q l → l ≠ seed → ¬m.isPlaced l

theorem WholeBut.respects_isPlaced (h : g.WholeBut m seed)
    (hseed : ∀ l, g.Related seed l → m.isPlaced l) :
    g.Respects m.isPlaced := by
  intro e he
  obtain ⟨hthere, hback⟩ := meet_ends he
  rcases h e.first with hall | hnone
  · rw [hall e.first .refl, hall e.second (.single hthere)]
  · by_cases hfirst : e.first = seed
    · rw [hseed e.first (hfirst ▸ .refl), hseed e.second (hfirst ▸ .single hthere)]
    · by_cases hsecond : e.second = seed
      · rw [hseed e.first (hsecond ▸ .single hback), hseed e.second (hsecond ▸ .refl)]
      · rw [Bool.eq_false_iff.mpr (hnone e.first .refl hfirst),
          Bool.eq_false_iff.mpr (hnone e.second (.single hthere) hsecond)]

theorem WholeBut.respects_others (h : g.WholeBut m seed)
    (hseed : ¬∀ l, g.Related seed l → m.isPlaced l) :
    g.Respects fun l => m.isPlaced l && l ≠ seed := by
  intro e he
  obtain ⟨hthere, -⟩ := meet_ends he
  rcases h e.first with hall | hnone
  · -- the component of `seed` is not placed as a whole, so this is another one
    have hin : ∀ l, g.Related e.first l → (m.isPlaced l && l ≠ seed) = true := by
      intro l hl
      have hne : l ≠ seed := by
        rintro rfl
        exact hseed fun k hk => hall k (hl.trans hk)
      simp [hall l hl, hne]
    exact (hin e.first .refl).trans (hin e.second (.single hthere)).symm
  · have hout : ∀ l, g.Related e.first l → (m.isPlaced l && l ≠ seed) = false := by
      intro l hl
      by_cases hne : l = seed
      · simp [hne]
      · simp [hnone l hl hne]
    exact (hout e.first .refl).trans (hout e.second (.single hthere)).symm

/-- Whether components are placed as a whole shows in the single interactions. -/
theorem wholeBut_iff :
    g.WholeBut m seed ↔ g.Respects m.isPlaced ∨ g.Respects fun l => m.isPlaced l && l ≠ seed := by
  constructor
  · intro h
    by_cases hseed : ∀ l, g.Related seed l → m.isPlaced l
    · exact Or.inl (h.respects_isPlaced hseed)
    · exact Or.inr (h.respects_others hseed)
  · rintro (h | h) q
    · cases hq : m.isPlaced q with
      | true => exact Or.inl fun l hl => (h.related hl).symm.trans hq
      | false => exact Or.inr fun l hl _ => by simp [← h.related hl, hq]
    · cases hq : m.isPlaced q && q ≠ seed with
      | true =>
        refine Or.inl fun l hl => ?_
        have hin := (h.related hl).symm.trans hq
        exact (Bool.and_eq_true_iff.mp hin).1
      | false =>
        refine Or.inr fun l hl hne hplaced => ?_
        have hout := (h.related hl).symm.trans hq
        simp [hplaced, hne] at hout

instance (g : InteractionGraph) (m : Layout) (seed : LogicalQubit) :
    Decidable (g.WholeBut m seed) :=
  decidable_of_iff _ wholeBut_iff.symm

/-! ## What is left to pull -/

/-- Both ends of all interactions. -/
def ends (g : InteractionGraph) : List LogicalQubit :=
  g.interactions.toList.flatMap fun e => [e.first, e.second]

theorem length_ends (g : InteractionGraph) : g.ends.length = 2 * g.interactions.size := by
  simp [ends, List.length_flatMap, Nat.mul_comm]

theorem WellFormed.length_partners_le (h : g.WellFormed) (q : LogicalQubit) :
    (g.partners q).length ≤ g.ends.count q := by
  have hends : g.ends = g.pairs.flatMap fun c => [c.1, c.2] := by rw [ends, pairs, List.flatMap_map]
  rw [← List.length_map (f := (·.1)), h.map_fst_partners, hends]
  induction g.pairs with
  | nil => simp
  | cons c cs ih =>
    have hone : (partner? q c).toList.length ≤ [c.1, c.2].count q := by
      unfold partner?
      by_cases hfirst : c.1 = q
      · simp [hfirst]
      · by_cases hsecond : c.2 = q <;> simp [hfirst, hsecond]
    rw [List.flatMap_cons, List.count_append, List.filterMap_cons]
    cases hpartner : partner? q c with
    | none =>
      simp only
      omega
    | some k =>
      rw [hpartner, Option.toList_some, List.length_singleton] at hone
      simp only [List.length_cons]
      omega

/-- The number of ends of interactions that are not placed. -/
def openEnds (g : InteractionGraph) (m : Layout) : Nat := g.ends.countP fun q => !m.isPlaced q

/-- A qubit that gets a place takes along the ends that it is of. -/
theorem openEnds_assign_add_le (hnew : ¬m.isPlaced l) (hfree : ¬m.isOccupied p) :
    g.openEnds (m.assign l p) + g.ends.count l ≤ g.openEnds m := by
  apply Placement.countP_add_count_le
  · intro q hq
    simp only [Bool.not_eq_true', ← Bool.not_eq_true, Layout.isPlaced_assign_free hfree,
      not_or] at hq ⊢
    exact hq.2
  · simp [Layout.isPlaced_assign_free hfree]
  · simpa using hnew

theorem openEnds_add_le (hseed : m.isPlaced seed) :
    g.openEnds m + g.ends.count seed ≤ 2 * g.interactions.size := by
  rw [← length_ends, ← List.countP_true]
  exact Placement.countP_add_count_le (fun _ _ => rfl) (by simp [hseed]) rfl g.ends

end InteractionGraph

namespace Placement

/-! ## The queue -/

/-- Stronger pulls come first. -/
def InOrder (pulls : List Pull) : Prop := pulls.Pairwise fun p q => q.weight.rank ≤ p.weight.rank

theorem InOrder.tail {pull : Pull} {pulls : List Pull} (h : InOrder (pull :: pulls)) :
    InOrder pulls :=
  (List.pairwise_cons.mp h).2

theorem InOrder.insert {pulls : List Pull} (h : InOrder pulls) (pull : Pull) :
    InOrder (pull.insert pulls) := by
  induction pulls with
  | nil => exact List.pairwise_singleton _ _
  | cons q pulls ih =>
    have hhead := (List.pairwise_cons.mp h).1
    rw [Pull.insert]
    split
    · rename_i hstronger
      have hlt : q.weight.rank < pull.weight.rank := of_decide_eq_true hstronger
      refine List.pairwise_cons.mpr ⟨?_, h⟩
      intro x hx
      rcases List.mem_cons.mp hx with rfl | hx
      · exact Int.le_of_lt hlt
      · exact Int.le_trans (hhead x hx) (Int.le_of_lt hlt)
    · rename_i hweaker
      have hle : pull.weight.rank ≤ q.weight.rank := by simpa [Pull.stronger] using hweaker
      refine List.pairwise_cons.mpr ⟨?_, ih h.tail⟩
      intro x hx
      rcases (List.mem_orderedInsert _).mp (insert_eq pull pulls ▸ hx) with rfl | hx
      · exact hle
      · exact hhead x hx

theorem InOrder.addFrom {pulls : List Pull} (h : InOrder pulls) (g : InteractionGraph) (m : Layout)
    (source : LogicalQubit) : InOrder (Pull.addFrom g m source pulls) := by
  unfold Pull.addFrom
  induction Pull.ofSource g m source generalizing pulls with
  | nil => exact h
  | cons pull new ih => exact ih (h.insert pull)

theorem length_addFrom_le (hwf : g.WellFormed) (m : Layout) (source : LogicalQubit)
    (pulls : List Pull) :
    (Pull.addFrom g m source pulls).length ≤ pulls.length + g.ends.count source := by
  have hfold : ∀ (new pulls : List Pull),
      (new.foldl (fun pulls p => p.insert pulls) pulls).length = pulls.length + new.length := by
    intro new
    induction new with
    | nil => simp
    | cons pull new ih =>
      intro pulls
      rw [List.foldl_cons, ih, insert_eq, List.orderedInsert_length, List.length_cons,
        Nat.add_right_comm, Nat.add_assoc]
  have hnew : (Pull.ofSource g m source).length ≤ (g.partners source).length :=
    List.length_filterMap_le _ _
  have hpartners := hwf.length_partners_le source
  rw [Pull.addFrom, hfold]
  omega

/-- **What the queue holds**: pulls in order, each of them by a placed qubit on one of its partners,
and among them those of every placed qubit on every unplaced partner. -/
structure Pulling (g : InteractionGraph) (m : Layout) (pulls : List Pull) : Prop where
  inOrder : InOrder pulls
  genuine : ∀ pull ∈ pulls, m.isPlaced pull.source ∧
    (pull.target, pull.weight) ∈ g.partners pull.source
  complete : ∀ a, m.isPlaced a → ∀ c ∈ g.partners a, ¬m.isPlaced c.1 → ⟨c.2, a, c.1⟩ ∈ pulls

section

variable {pull : Pull} {pulls : List Pull}

/-- At first only the seed pulls, for nobody else is placed without all of their partners. -/
theorem Pulling.first (hwf : g.WellFormed) (hseed : m.isPlaced seed) (hwhole : g.WholeBut m seed) :
    Pulling g m (Pull.addFrom g m seed []) where
  inOrder := InOrder.addFrom List.Pairwise.nil g m seed
  genuine pull hpull := by
    rcases mem_foldl_insert.mp hpull with hpull | hpull
    · obtain ⟨rfl, hc, -⟩ := mem_ofSource.mp hpull
      exact ⟨hseed, hc⟩
    · exact absurd hpull List.not_mem_nil
  complete a ha c hc hnew := by
    obtain ⟨e, he, hjoins, -⟩ := hwf.mem_partners_iff.mp hc
    have hrelated : g.Related a c.1 := .single ⟨e, he, hjoins⟩
    obtain rfl : a = seed := by
      by_contra hne
      rcases hwhole a with hall | hnone
      · exact hnew (hall c.1 hrelated)
      · exact hnone a .refl hne ha
    exact mem_foldl_insert.mpr (.inl (mem_ofSource.mpr ⟨rfl, hc, hnew⟩))

theorem Pulling.drop (h : Pulling g m (pull :: pulls)) (hplaced : m.isPlaced pull.target) :
    Pulling g m pulls where
  inOrder := h.inOrder.tail
  genuine q hq := h.genuine q (List.mem_cons_of_mem pull hq)
  complete a ha c hc hnew := by
    rcases List.mem_cons.mp (h.complete a ha c hc hnew) with heq | hmem
    · rw [← heq] at hplaced
      exact absurd hplaced hnew
    · exact hmem

theorem Pulling.place (h : Pulling g m (pull :: pulls)) (hfree : ¬m.isOccupied p) :
    Pulling g (m.assign pull.target p)
      (Pull.addFrom g (m.assign pull.target p) pull.target pulls) := by
  have hplaced : ∀ {q}, (m.assign pull.target p).isPlaced q ↔ pull.target = q ∨ m.isPlaced q :=
    Layout.isPlaced_assign_free hfree
  constructor
  · exact h.inOrder.tail.addFrom g _ _
  · intro q hq
    rcases mem_foldl_insert.mp hq with hq | hq
    · obtain ⟨hsource, hc, -⟩ := mem_ofSource.mp hq
      rw [hsource]
      exact ⟨hplaced.mpr (.inl rfl), hc⟩
    · obtain ⟨hsource, hc⟩ := h.genuine q (List.mem_cons_of_mem pull hq)
      exact ⟨hplaced.mpr (.inr hsource), hc⟩
  · intro a ha c hc hnew
    apply mem_foldl_insert.mpr
    rcases hplaced.mp ha with rfl | ha
    · exact .inl (mem_ofSource.mpr ⟨rfl, hc, hnew⟩)
    · obtain ⟨hne, hold⟩ := not_or.mp (hplaced.not.mp hnew)
      rcases List.mem_cons.mp (h.complete a ha c hc hold) with heq | hmem
      · exact absurd (congrArg Pull.target heq).symm hne
      · exact .inr hmem

theorem Pulling.mem_of_crosses (hwf : g.WellFormed) (h : Pulling g m pulls) {e : Interaction}
    (he : e ∈ g.interactions.toList) (hcross : e.Crosses m) : ∃ q ∈ pulls, q.weight = e.weight := by
  obtain ⟨a, b, hjoins, ha, hb⟩ := hcross.exists_joins
  exact ⟨_, h.complete a ha (b, e.weight) (hwf.mem_partners_iff.mpr ⟨e, he, hjoins, rfl⟩) hb, rfl⟩

/-- No interaction with one placed end is stronger than the first pull. -/
theorem Pulling.rank_le (hwf : g.WellFormed) (h : Pulling g m (pull :: pulls)) {e : Interaction}
    (he : e ∈ g.interactions.toList) (hcross : e.Crosses m) : e.weight.rank ≤ pull.weight.rank := by
  obtain ⟨q, hq, hweight⟩ := h.mem_of_crosses hwf he hcross
  rw [← hweight]
  rcases List.mem_cons.mp hq with rfl | hq
  · exact Int.le_refl _
  · exact (List.pairwise_cons.mp h.inOrder).1 q hq

end

/-! ## The nearest place -/

/-- Whoever sits outside of the device finds no free place. -/
theorem mem_of_nearestFree_of_isOccupied {anchor : PhysicalQubit} (hocc : m.isOccupied anchor)
    (h : t.nearestFree m anchor = .ok p) : anchor ∈ t.qubits := by
  have hfree := not_isOccupied_of_nearestFree h
  obtain ⟨r, hr, rfl⟩ := search_of_nearestFree h
  rcases Relation.ReflTransGen.cases_head
    (FiniteGraph.search_isRoute hr).1.leads with hsame | ⟨near, hstep, -⟩
  · rw [← hsame] at hfree
    exact absurd hocc hfree
  · exact (Topology.joins_of_adjacent (Topology.step_iff.mp hstep)).1

theorem noFurther_of_nearestFree (hconn : t.Connected) {anchor q : PhysicalQubit}
    (hanchor : anchor ∈ t.qubits)
    (h : t.nearestFree m anchor = .ok p) (hq : q ∈ t.qubits) (hfree : ¬m.isOccupied q) :
    t.graph.NoFurther anchor p q := by
  obtain ⟨r, hr, rfl⟩ := search_of_nearestFree h
  have hfind : (t.graph.order anchor).find? (fun q => !m.isOccupied q) = some r.node := by
    rw [← FiniteGraph.nearest_eq_find?, FiniteGraph.nearest, hr, Option.map_some]
  have hmem : q ∈ t.graph.order anchor := FiniteGraph.mem_order_iff.mpr (hconn anchor hanchor q hq)
  exact FiniteGraph.noFurther_of_find? hfind hmem (by simpa using hfree)

/-! ## The placings -/

/-- A pull that has been followed, and the place where its target went. -/
structure Placing where
  pull : Pull
  place : PhysicalQubit
deriving Repr

namespace Placing

def perform (m : Layout) (s : Placing) : Layout := m.assign s.pull.target s.place

/-- **A placing is as it should be** in a layout: it follows an interaction between a placed and an
unplaced qubit such that no other one is stronger, and no free place is nearer to the placed
qubit. -/
structure Apt (g : InteractionGraph) (t : Topology) (m : Layout) (s : Placing) : Prop where
  unplaced : ¬m.isPlaced s.pull.target
  strongest : ∃ e ∈ g.interactions.toList, e.joins s.pull.source s.pull.target ∧ e.Crosses m ∧
    ∀ e' ∈ g.interactions.toList, e'.Crosses m → e'.weight.rank ≤ e.weight.rank
  nearest : ∃ anchor, m.physical s.pull.source = some anchor ∧ s.place ∈ t.qubits ∧
    ¬m.isOccupied s.place ∧
    ∀ q ∈ t.qubits, ¬m.isOccupied q → t.graph.NoFurther anchor s.place q

end Placing

/-- The placings of `followPulls`. -/
def placings (g : InteractionGraph) (t : Topology) :
    Nat → List Pull → Layout → Except Fault (List Placing)
  | 0, _, _ => .ok []
  | _ + 1, [], _ => .ok []
  | fuel + 1, pull :: pulls, m =>
    if m.isPlaced pull.target then placings g t fuel pulls m
    else
      match m.physical pull.source with
      | none => placings g t fuel pulls m
      | some anchor => do
        let place ← t.nearestFree m anchor
        let m := m.assign pull.target place
        let rest ← placings g t fuel (Pull.addFrom g m pull.target pulls) m
        return ⟨pull, place⟩ :: rest

/-- The loop does nothing but its placings. -/
theorem followPulls_eq (g : InteractionGraph) (t : Topology) (fuel : Nat) (pulls : List Pull)
    (m : Layout) :
    followPulls g t fuel pulls m = (placings g t fuel pulls m).map (·.foldl Placing.perform m) := by
  induction fuel generalizing pulls m with
  | zero => rfl
  | succ fuel ih =>
    cases pulls with
    | nil => rfl
    | cons pull pulls =>
      rw [followPulls, placings]
      split
      · exact ih pulls m
      · cases m.physical pull.source with
        | none => exact ih pulls m
        | some anchor =>
          simp only [bind, Except.bind, ih]
          cases t.nearestFree m anchor with
          | error f => rfl
          | ok place =>
            dsimp only
            cases placings g t fuel _ (m.assign pull.target place) with
            | error f => rfl
            | ok rest => rfl

/-- The placings of `grow`. -/
def growth (g : InteractionGraph) (t : Topology) (m : Layout) (seed : LogicalQubit) :
    Except Fault (List Placing) :=
  placings g t (pullBound g) (Pull.addFrom g m seed []) m

theorem grow_eq_ok_iff :
    grow g t m seed = .ok m' ↔ ∃ log, growth g t m seed = .ok log ∧
      log.foldl Placing.perform m = m' := by
  rw [grow, followPulls_eq, growth]
  cases placings g t (pullBound g) (Pull.addFrom g m seed []) m <;> simp [Except.map]

/-- Apt placings one after another, until no interaction has one placed end. -/
inductive Greedy (g : InteractionGraph) (t : Topology) : Layout → List Placing → Prop where
  | done {m : Layout} (hnone : ∀ e ∈ g.interactions.toList, ¬e.Crosses m) : Greedy g t m []
  | place {m : Layout} {s : Placing} {rest : List Placing} (hapt : s.Apt g t m)
      (hrest : Greedy g t (s.perform m) rest) : Greedy g t m (s :: rest)

theorem Greedy.apt {log before after : List Placing} {s : Placing} (h : Greedy g t m log)
    (hlog : log = before ++ s :: after) : s.Apt g t (before.foldl Placing.perform m) := by
  induction h generalizing before with
  | done => exact absurd hlog (by simp)
  | place hapt _ ih =>
    cases before with
    | nil =>
      obtain ⟨rfl, -⟩ := List.cons.inj hlog
      exact hapt
    | cons _ before =>
      obtain ⟨rfl, hrest⟩ := List.cons.inj hlog
      exact ih hrest

theorem Greedy.not_crosses {log : List Placing} (h : Greedy g t m log) {e : Interaction}
    (he : e ∈ g.interactions.toList) : ¬e.Crosses (log.foldl Placing.perform m) := by
  induction h with
  | done hnone => exact hnone e he
  | place _ _ ih => exact ih

/-- The first pull, if its target is unplaced, is followed as it should be. -/
theorem Pulling.apt {pull : Pull} {pulls : List Pull} {anchor : PhysicalQubit} (hwf : g.WellFormed)
    (hconn : t.Connected) (h : Pulling g m (pull :: pulls)) (hnew : ¬m.isPlaced pull.target)
    (hanchor : m.physical pull.source = some anchor) (hp : t.nearestFree m anchor = .ok p) :
    Placing.Apt g t m ⟨pull, p⟩ := by
  obtain ⟨hsource, hc⟩ := h.genuine pull List.mem_cons_self
  obtain ⟨e, he, hjoins, hweight⟩ := hwf.mem_partners_iff.mp hc
  have hocc : m.isOccupied anchor :=
    Layout.isOccupied_iff.mpr ⟨pull.source, Layout.physical_eq_some_iff.mp hanchor⟩
  have hdevice := mem_of_nearestFree_of_isOccupied hocc hp
  constructor
  · exact hnew
  · refine ⟨e, he, hjoins, Interaction.crosses_of_joins hjoins hsource hnew, ?_⟩
    intro e' he' hcross
    rw [hweight]
    exact h.rank_le hwf he' hcross
  · refine ⟨anchor, hanchor, mem_of_nearestFree hdevice hp, not_isOccupied_of_nearestFree hp, ?_⟩
    intro q hq hfree
    exact noFurther_of_nearestFree hconn hdevice hp hq hfree

/-- **The loop follows the strongest pull, time and again, until nobody pulls any more.** What is
left in the queue and what can still be added to it is less than the loop may take up. -/
theorem Pulling.greedy {fuel : Nat} {pulls : List Pull} {log : List Placing} (hwf : g.WellFormed)
    (hconn : t.Connected) (h : Pulling g m pulls) (hfuel : pulls.length + g.openEnds m < fuel)
    (hlog : placings g t fuel pulls m = .ok log) : Greedy g t m log := by
  induction fuel generalizing pulls m log with
  | zero => exact absurd hfuel (Nat.not_lt_zero _)
  | succ fuel ih =>
    cases pulls with
    | nil =>
      obtain rfl := Except.ok.inj hlog
      refine .done fun e he hcross => ?_
      obtain ⟨q, hq, -⟩ := h.mem_of_crosses hwf he hcross
      exact List.not_mem_nil hq
    | cons pull pulls =>
      rw [List.length_cons] at hfuel
      rw [placings] at hlog
      split at hlog
      · rename_i hplaced
        exact ih (h.drop hplaced) (by omega) hlog
      · rename_i hnew
        obtain ⟨anchor, hanchor⟩ := Layout.isPlaced_iff.mp (h.genuine pull List.mem_cons_self).1
        rw [hanchor] at hlog
        obtain ⟨place, hplace, hlog⟩ := bind_eq_ok_iff.mp hlog
        obtain ⟨rest, hrest, hlog⟩ := bind_eq_ok_iff.mp hlog
        obtain rfl := Except.ok.inj hlog
        have hfree := not_isOccupied_of_nearestFree hplace
        -- what the new qubit pulls is paid for by the ends that it closes
        have hadded := length_addFrom_le hwf (m.assign pull.target place) pull.target pulls
        have hclosed := g.openEnds_assign_add_le hnew hfree
        have hless : (Pull.addFrom g (m.assign pull.target place) pull.target pulls).length +
            g.openEnds (m.assign pull.target place) < fuel := by omega
        exact .place (h.apt hwf hconn hnew hanchor hplace) (ih (h.place hfree) hless hrest)

/-! ## A whole component -/

theorem closed_related (hwf : g.WellFormed) (seed : LogicalQubit) : Closed g (g.Related seed) := by
  intro q hq c hc
  obtain ⟨e, he, hjoins, -⟩ := hwf.mem_partners_iff.mp hc
  exact hq.tail ⟨e, he, hjoins⟩

/-- A placement of known qubits places no others. -/
theorem Grows.known {known : LogicalQubit → Prop} (h : Grows known t m m') (hl : m'.isPlaced l) :
    m.isPlaced l ∨ known l := by
  induction h with
  | refl => exact .inl hl
  | tail _ hstep ih =>
    cases hstep with
    | near hknown _ _ hp =>
      rcases (Layout.isPlaced_assign_free (not_isOccupied_of_nearestFree hp)).mp hl with rfl | hl
      · exact .inr hknown
      · exact ih hl
    | slot hknown _ hp =>
      rcases (Layout.isPlaced_assign_free (freeSlot?_eq_some hp).2).mp hl with rfl | hl
      · exact .inr hknown
      · exact ih hl

/-- Where no interaction has one placed end, the component of a placed qubit is placed. -/
theorem isPlaced_of_related (hnone : ∀ e ∈ g.interactions.toList, ¬e.Crosses m)
    (hseed : m.isPlaced seed) (h : g.Related seed l) : m.isPlaced l := by
  induction h with
  | refl => exact hseed
  | tail _ hmeet ih =>
    obtain ⟨e, he, hjoins⟩ := hmeet
    by_contra hnew
    exact hnone e he (Interaction.crosses_of_joins hjoins ih hnew)

theorem greedy_of_growth (hwf : g.WellFormed) (hconn : t.Connected) (hseed : m.isPlaced seed)
    (hwhole : g.WholeBut m seed)
    {log : List Placing} (h : growth g t m seed = .ok log) : Greedy g t m log := by
  refine (Pulling.first hwf hseed hwhole).greedy hwf hconn ?_ h
  have hpulls := length_addFrom_le hwf m seed []
  have hends := g.openEnds_add_le hseed
  rw [List.length_nil] at hpulls
  rw [pullBound]
  omega

/-- **Growing takes the strongest interaction and the nearest place, time and again**, for all
circuits that requests can describe, on a connected device and from a placed seed, where all
components are placed as a whole or, but for the seed, not at all. If it ends well, then the
component of the seed has been placed and nobody else, and whoever had a place has kept it. The
layout comes about by placings, each of which was as it should be in the layout that it met. -/
theorem grow_strongest_nearest (requests : List InteractionGraph.Request) (hconn : t.Connected)
    (hseed : m.isPlaced seed) (hwhole : (InteractionGraph.empty.afterAll requests).WholeBut m seed)
    (h : grow (.afterAll .empty requests) t m seed = .ok m') :
    let g := InteractionGraph.empty.afterAll requests
    (∀ l, m'.isPlaced l ↔ m.isPlaced l ∨ g.Related seed l) ∧
      (∀ l p, m.physical l = some p → m'.physical l = some p) ∧
      ∃ log, growth g t m seed = .ok log ∧ log.foldl Placing.perform m = m' ∧
        ∀ before s after, log = before ++ s :: after →
          s.Apt g t (before.foldl Placing.perform m) := by
  intro g
  have hwf : g.WellFormed := InteractionGraph.wellFormed_empty.afterAll requests
  have hgrows : Grows (g.Related seed) t m m' := (ends_grow (closed_related hwf seed) .refl).grows h
  obtain ⟨log, hlog, rfl⟩ := grow_eq_ok_iff.mp h
  have hgreedy := greedy_of_growth hwf hconn hseed hwhole hlog
  refine ⟨fun l => ⟨hgrows.known, ?_⟩, fun l p => hgrows.keeps, log, hlog, rfl,
    fun _ _ _ => hgreedy.apt⟩
  rintro (hl | hl)
  · exact hgrows.isPlaced hl
  · exact isPlaced_of_related (fun e he => hgreedy.not_crosses he) (hgrows.isPlaced hseed) hl

/-- On a grid of nine, with places `0 1 2`, `3 4 5` and `6 7 8` in its rows, one pair has been
placed in the first row, and a qubit in the middle pulls two others. The one that it has met twice
comes first, and its own partner last, next to it. -/
theorem grow_strongest_nearest_grid :
    let g := InteractionGraph.empty.afterAll
      [.recordNamed "a" "b", .recordNamed "a" "c", .recordNamed "c" "a", .recordNamed "c" "d",
        .recordNamed "x" "y"]
    let t := Topology.grid 3 3
    let m := ((Layout.empty.assign ⟨4⟩ ⟨0⟩).assign ⟨5⟩ ⟨1⟩).assign ⟨0⟩ ⟨4⟩
    t.Connected ∧ m.isPlaced ⟨0⟩ ∧ g.WholeBut m ⟨0⟩ ∧ ∃ m' log, grow g t m ⟨0⟩ = .ok m' ∧
      growth g t m ⟨0⟩ = .ok log ∧ log.map (fun s => (s.pull.source, s.pull.target, s.place)) =
        [(⟨0⟩, ⟨2⟩, ⟨3⟩), (⟨0⟩, ⟨1⟩, ⟨5⟩), (⟨2⟩, ⟨3⟩, ⟨6⟩)] ∧
      (∀ l, m'.isPlaced l ↔ m.isPlaced l ∨ g.Related ⟨0⟩ l) ∧
      ∀ before s after, log = before ++ s :: after →
        s.Apt g t (before.foldl Placing.perform m) := by
  intro g t m
  have hconn : t.Connected := by decide +kernel
  have hseed : m.isPlaced ⟨0⟩ := by decide +kernel
  have hwhole : g.WholeBut m ⟨0⟩ := by decide +kernel
  have hplaces :
      (growth g t m ⟨0⟩).toOption.map (·.map fun s => (s.pull.source, s.pull.target, s.place)) =
      some [(⟨0⟩, ⟨2⟩, ⟨3⟩), (⟨0⟩, ⟨1⟩, ⟨5⟩), (⟨2⟩, ⟨3⟩, ⟨6⟩)] := by decide +kernel
  obtain ⟨log, hlog, hplaces⟩ := Option.map_eq_some_iff.mp hplaces
  have hlog := toOption_eq_some_iff.mp hlog
  have hgrow := grow_eq_ok_iff.mpr ⟨log, hlog, rfl⟩
  obtain ⟨hplaced, -, log', hlog', -, hapt⟩ := grow_strongest_nearest _ hconn hseed hwhole hgrow
  obtain rfl := Except.ok.inj (hlog.symm.trans hlog')
  exact ⟨hconn, hseed, hwhole, _, log, hgrow, hlog, hplaces, hplaced, hapt⟩

end Placement

end QubitRouting
