import Mathlib.Data.List.Chain
import Mathlib.Data.List.Nodup
import Mathlib.Logic.Relation
import QubitRouting.Graph.Traversal

/-!
# The level search finds what can be reached

`FiniteGraph.search` (`Graph/Traversal.lean`) proceeds level by level and stops at the first node
with the wanted property. Two facts about it are proved here, each as what one level does and then,
by induction on the fuel, what the whole search does:

* **what is found is a path** (`search_isRoute`): the route starts where the search started, takes
  one link at a time, and meets no node twice;
* **what can be reached is found** (`search_isSome`): if some way leads to a node with the property,
  then the search does not come back empty. The fuel is enough because every level but the last one
  sees a node that no earlier level has seen.

The nested loops over a level and over the neighbours of its routes are one loop over *arcs*
(`foldl_extend`); all that is known about a level comes from that loop.
-/

set_option autoImplicit false

namespace QubitRouting

namespace FiniteGraph

variable {α : Type}

/-- A link leads from `a` to `b`. -/
def Step (g : FiniteGraph α) (a b : α) : Prop := b ∈ g.neighbors a

/-- Links lead from `a` to `b`, none or more. -/
def Leads (g : FiniteGraph α) (a b : α) : Prop := Relation.ReflTransGen g.Step a b

/-- A simple path: one link at a time, and no node twice. -/
structure IsPath (g : FiniteGraph α) (path : List α) : Prop where
  chain : path.IsChain g.Step
  nodup : path.Nodup

/-- A route from `start` along links of `g` that meets no node twice. -/
structure IsRoute (g : FiniteGraph α) (start : α) (r : Route α) : Prop where
  chain : (r.node :: r.back).IsChain fun b a => g.Step a b
  begins : (r.node :: r.back).getLast? = some start
  nodup : (r.node :: r.back).Nodup

theorem IsRoute.start (g : FiniteGraph α) (a : α) : g.IsRoute a ⟨a, []⟩ :=
  ⟨.singleton a, rfl, List.nodup_singleton a⟩

/-- A route goes on to a new neighbour of its end. -/
theorem IsRoute.step {g : FiniteGraph α} {start b : α} {r : Route α} (h : g.IsRoute start r)
    (hb : b ∈ g.neighbors r.node) (hnew : b ∉ r.node :: r.back) : g.IsRoute start (r.step b) where
  chain := List.isChain_cons_cons.mpr ⟨hb, h.chain⟩
  begins := by
    rw [Route.step, List.getLast?_cons_cons]
    exact h.begins
  nodup := List.nodup_cons.mpr ⟨hnew, h.nodup⟩

/-- A route without its last step is a route. -/
theorem IsRoute.tail {g : FiniteGraph α} {start a b : α} {back : List α}
    (h : g.IsRoute start ⟨b, a :: back⟩) :
    g.IsRoute start ⟨a, back⟩ where
  chain := (List.isChain_cons_cons.mp h.chain).2
  begins := by
    rw [← h.begins, List.getLast?_cons_cons]
  nodup := (List.nodup_cons.mp h.nodup).2

theorem IsRoute.isPath {g : FiniteGraph α} {start : α} {r : Route α} (h : g.IsRoute start r) :
    g.IsPath r.path where
  chain := List.isChain_reverse.mpr h.chain
  nodup := List.nodup_reverse.mpr h.nodup

theorem IsRoute.head?_path {g : FiniteGraph α} {start : α} {r : Route α} (h : g.IsRoute start r) :
    r.path.head? = some start := by
  rw [Route.path, List.head?_reverse]
  exact h.begins

theorem getLast?_path (r : Route α) : r.path.getLast? = some r.node := by
  rw [Route.path, List.getLast?_reverse]
  rfl

theorem IsRoute.leads {g : FiniteGraph α} {start : α} {r : Route α} (h : g.IsRoute start r) :
    g.Leads start r.node := by
  have hne : r.path ≠ [] := by
    intro hnil
    have hhead := h.head?_path
    rw [hnil] at hhead
    cases hhead
  have hleads := List.relationReflTransGen_of_exists_isChain r.path h.isPath.chain hne
  have hhead := h.head?_path
  have hlast := getLast?_path r
  rw [List.head?_eq_some_head hne] at hhead
  rw [List.getLast?_eq_some_getLast hne] at hlast
  rwa [Option.some.inj hhead, Option.some.inj hlast] at hleads

/-- All nodes of a route can be reached. -/
theorem IsRoute.leads_of_mem {g : FiniteGraph α} {start x : α} {r : Route α} (h : g.IsRoute start r)
    (hx : x ∈ r.node :: r.back) : g.Leads start x := by
  obtain ⟨node, back⟩ := r
  induction back generalizing node with
  | nil =>
    rw [List.mem_singleton.mp hx]
    exact h.leads
  | cons a back ih =>
    rcases List.mem_cons.mp hx with rfl | hx
    · exact h.leads
    · exact ih a h.tail hx

theorem Leads.eq_or_mem_nodes {g : FiniteGraph α} {a b : α} (h : g.Leads a b) :
    b = a ∨ b ∈ g.nodes := by
  rcases Relation.ReflTransGen.cases_tail h with heq | ⟨c, -, hstep⟩
  · exact Or.inl heq
  · exact Or.inr (g.neighbors_mem c b hstep)

/-! ## One level -/

/-- All links that lead out of the ends of routes. -/
def arcs (g : FiniteGraph α) (level : List (Route α)) : List (Route α × α) :=
  level.flatMap fun r => (g.neighbors r.node).map (r, ·)

theorem mem_arcs {g : FiniteGraph α} {level : List (Route α)} {a : Route α × α} :
    a ∈ g.arcs level ↔ a.1 ∈ level ∧ a.2 ∈ g.neighbors a.1.node := by
  obtain ⟨r, b⟩ := a
  simp only [arcs, List.mem_flatMap, List.mem_map, Prod.mk.injEq]
  constructor
  · rintro ⟨r', hr', b', hb', rfl, rfl⟩
    exact ⟨hr', hb'⟩
  · rintro ⟨hr, hb⟩
    exact ⟨r, hr, b, hb, rfl, rfl⟩

section Level

variable [Ord α]

/-- Visits the ends of arcs. -/
def visitArcs (d : Discovery α) (as : List (Route α × α)) : Discovery α :=
  as.foldl (fun d a => d.visit a.1 a.2) d

theorem foldl_extend (g : FiniteGraph α) (d : Discovery α) (level : List (Route α)) :
    level.foldl g.extend d = visitArcs d (g.arcs level) := by
  rw [visitArcs, arcs, List.foldl_flatMap]
  congr 1
  funext d r
  rw [List.foldl_map]
  rfl

theorem found_subset_visitArcs {as : List (Route α × α)} {d : Discovery α} :
    d.found ⊆ (visitArcs d as).found := by
  induction as generalizing d with
  | nil => exact fun _ h => h
  | cons a as ih =>
    rw [visitArcs, List.foldl_cons, ← visitArcs]
    refine List.Subset.trans ?_ ih
    rw [Discovery.visit]
    split
    · exact fun _ h => h
    · exact List.subset_cons_self _ _

variable [Std.TransOrd α] [Std.LawfulEqOrd α]

theorem mem_seen_visit {d : Discovery α} {r : Route α} {b x : α} :
    x ∈ (d.visit r b).seen ↔ x ∈ d.seen ∨ b = x := by
  rw [Discovery.visit]
  split
  · rename_i hb
    constructor
    · exact Or.inl
    · rintro (hx | rfl)
      · exact hx
      · exact Std.TreeSet.mem_iff_contains.mpr hb
  · simp only [Std.TreeSet.mem_insert, Std.LawfulEqCmp.compare_eq_iff_eq]
    exact Or.comm

theorem mem_seen_visitArcs {as : List (Route α × α)} {d : Discovery α} {x : α} :
    x ∈ (visitArcs d as).seen ↔ x ∈ d.seen ∨ ∃ a ∈ as, a.2 = x := by
  induction as generalizing d with
  | nil => simp [visitArcs]
  | cons a as ih =>
    rw [visitArcs, List.foldl_cons, ← visitArcs, ih, mem_seen_visit, or_assoc]
    simp

/-- A route that is found was there before, or prolongs an arc's route by a node that was unseen. -/
theorem found_visitArcs {as : List (Route α × α)} {d : Discovery α} {r : Route α}
    (h : r ∈ (visitArcs d as).found) :
    r ∈ d.found ∨ ∃ a ∈ as, a.2 ∉ d.seen ∧ r = a.1.step a.2 := by
  induction as generalizing d with
  | nil => exact Or.inl h
  | cons a as ih =>
    rw [visitArcs, List.foldl_cons, ← visitArcs] at h
    rcases ih h with hr | ⟨a', ha', hnew, rfl⟩
    · rw [Discovery.visit] at hr
      split at hr
      · exact Or.inl hr
      · rename_i hb
        rcases List.mem_cons.mp hr with rfl | hr
        · exact Or.inr ⟨a, List.mem_cons_self, fun hs => hb hs, rfl⟩
        · exact Or.inl hr
    · exact Or.inr ⟨a', List.mem_cons_of_mem _ ha',
        fun hs => hnew (mem_seen_visit.mpr (.inl hs)), rfl⟩

/-- Whatever has been seen in the end was seen before or is the end of a route that was found. -/
theorem found_of_mem_seen_visitArcs {as : List (Route α × α)} {d : Discovery α} {x : α}
    (h : x ∈ (visitArcs d as).seen) : x ∈ d.seen ∨ ∃ r ∈ (visitArcs d as).found, r.node = x := by
  induction as generalizing d with
  | nil => exact Or.inl h
  | cons a as ih =>
    rw [visitArcs, List.foldl_cons, ← visitArcs] at h ⊢
    rcases ih h with hx | hx
    · rcases mem_seen_visit.mp hx with hx | rfl
      · exact Or.inl hx
      · by_cases hs : a.2 ∈ d.seen
        · exact Or.inl hs
        · refine Or.inr ⟨a.1.step a.2, found_subset_visitArcs ?_, rfl⟩
          rw [Discovery.visit, if_neg fun hc => hs (Std.TreeSet.mem_iff_contains.mpr hc)]
          exact List.mem_cons_self
    · exact Or.inr hx

/-- **What a level sees**: what was seen before it, and the neighbours of the ends of its routes. -/
theorem mem_seen_nextLevel {g : FiniteGraph α} {seen : Std.TreeSet α} {level : List (Route α)}
    {x : α} :
    x ∈ (g.nextLevel seen level).1 ↔ x ∈ seen ∨ ∃ r ∈ level, x ∈ g.neighbors r.node := by
  rw [nextLevel, foldl_extend, mem_seen_visitArcs]
  refine or_congr_right ⟨?_, ?_⟩
  · rintro ⟨a, ha, rfl⟩
    exact ⟨a.1, (mem_arcs.mp ha).1, (mem_arcs.mp ha).2⟩
  · rintro ⟨r, hr, hx⟩
    exact ⟨(r, x), mem_arcs.mpr ⟨hr, hx⟩, rfl⟩

/-- **Where the next level comes from**: each of its routes prolongs one of this level by a node
that was unseen. -/
theorem exists_step_of_mem_nextLevel {g : FiniteGraph α} {seen : Std.TreeSet α}
    {level : List (Route α)} {r : Route α} (h : r ∈ (g.nextLevel seen level).2) :
    ∃ r' ∈ level, ∃ b ∈ g.neighbors r'.node, b ∉ seen ∧ r = r'.step b := by
  rw [nextLevel, foldl_extend] at h
  rcases found_visitArcs (List.mem_reverse.mp h) with hr | ⟨a, ha, hnew, rfl⟩
  · exact absurd hr List.not_mem_nil
  · exact ⟨a.1, (mem_arcs.mp ha).1, a.2, (mem_arcs.mp ha).2, hnew, rfl⟩

/-- **What is newly seen is on the next level.** -/
theorem mem_nextLevel_of_mem_seen {g : FiniteGraph α} {seen : Std.TreeSet α}
    {level : List (Route α)} {x : α} (h : x ∈ (g.nextLevel seen level).1) :
    x ∈ seen ∨ ∃ r ∈ (g.nextLevel seen level).2, r.node = x := by
  rw [nextLevel, foldl_extend] at h ⊢
  rcases found_of_mem_seen_visitArcs h with hx | ⟨r, hr, rfl⟩
  · exact Or.inl hx
  · exact Or.inr ⟨r, List.mem_reverse.mpr hr, rfl⟩

/-! ## The whole search -/

/-- The routes of a level are routes from `start` through nodes that have been seen. -/
def RoutesSeen (g : FiniteGraph α) (start : α) (seen : Std.TreeSet α)
    (level : List (Route α)) : Prop :=
  ∀ r ∈ level, g.IsRoute start r ∧ ∀ x ∈ r.node :: r.back, x ∈ seen

theorem RoutesSeen.nextLevel {g : FiniteGraph α} {start : α} {seen : Std.TreeSet α}
    {level : List (Route α)} (h : g.RoutesSeen start seen level) :
    g.RoutesSeen start (g.nextLevel seen level).1 (g.nextLevel seen level).2 := by
  intro r hr
  obtain ⟨r', hr', b, hb, hnew, rfl⟩ := exists_step_of_mem_nextLevel hr
  obtain ⟨hroute, hseen⟩ := h r' hr'
  refine ⟨hroute.step hb fun hmem => hnew (hseen b hmem), fun x hx => ?_⟩
  rcases List.mem_cons.mp hx with rfl | hx
  · exact mem_seen_nextLevel.mpr (.inr ⟨r', hr', hb⟩)
  · exact mem_seen_nextLevel.mpr (.inl (hseen x hx))

theorem searchFrom_isRoute {g : FiniteGraph α} {p : α → Bool} {start : α} {fuel : Nat}
    {seen : Std.TreeSet α} {level : List (Route α)} {r : Route α}
    (hlevel : g.RoutesSeen start seen level) (h : g.searchFrom p fuel seen level = some r) :
    g.IsRoute start r ∧ p r.node := by
  induction fuel generalizing seen level with
  | zero => exact absurd h (by simp [searchFrom])
  | succ fuel ih =>
    rw [searchFrom] at h
    split at h
    · exact absurd h (by simp)
    · split at h
      · rename_i r' hfind
        obtain rfl := Option.some.inj h
        have hp : p r'.node := List.find?_some (p := fun r : Route α => p r.node) hfind
        exact ⟨(hlevel _ (List.mem_of_find?_eq_some hfind)).1, hp⟩
      · exact ih hlevel.nextLevel h

/-- The nodes that have not been seen. -/
def unseen (g : FiniteGraph α) (seen : Std.TreeSet α) : List α := g.nodes.filter (· ∉ seen)

/-- A level that leads on sees something new. -/
theorem length_unseen_lt {g : FiniteGraph α} {seen : Std.TreeSet α} {level : List (Route α)}
    (h : (g.nextLevel seen level).2 ≠ []) :
    (g.unseen (g.nextLevel seen level).1).length < (g.unseen seen).length := by
  obtain ⟨r, hr⟩ := List.exists_mem_of_ne_nil _ h
  obtain ⟨r', hr', b, hb, hnew, rfl⟩ := exists_step_of_mem_nextLevel hr
  have hsub : g.unseen (g.nextLevel seen level).1 =
      (g.unseen seen).filter (· ∉ (g.nextLevel seen level).1) := by
    rw [unseen, unseen, List.filter_filter]
    refine List.filter_congr fun a _ => ?_
    by_cases ha : a ∈ seen
    · have ha' : a ∈ (g.nextLevel seen level).1 := mem_seen_nextLevel.mpr (.inl ha)
      simp [ha, ha']
    · simp [ha]
  have hb' : b ∈ (g.nextLevel seen level).1 := mem_seen_nextLevel.mpr (.inr ⟨r', hr', hb⟩)
  rw [hsub, List.length_filter_lt_length_iff_exists]
  exact ⟨b, List.mem_filter.mpr ⟨g.neighbors_mem _ b hb, by simpa using hnew⟩, by simpa using hb'⟩

/-- Fuel for the nodes that have not been seen lasts through all levels. -/
theorem fuel_nextLevel {g : FiniteGraph α} {seen : Std.TreeSet α} {fuel : Nat}
    (h : (g.unseen seen).length < fuel + 1) (level : List (Route α)) :
    (g.nextLevel seen level).2 = [] ∨ (g.unseen (g.nextLevel seen level).1).length < fuel := by
  by_cases hnext : (g.nextLevel seen level).2 = []
  · exact Or.inl hnext
  · have hlt := length_unseen_lt hnext
    exact Or.inr (by omega)

/-- The part of the graph behind a level is settled: it does not have the property, and links from
it stay within what has been seen. -/
def Settled (g : FiniteGraph α) (p : α → Bool) (seen : Std.TreeSet α)
    (level : List (Route α)) : Prop :=
  ∀ x ∈ seen, (∃ r ∈ level, r.node = x) ∨ (¬p x ∧ ∀ y ∈ g.neighbors x, y ∈ seen)

theorem Settled.nextLevel {g : FiniteGraph α} {p : α → Bool} {seen : Std.TreeSet α}
    {level : List (Route α)} (h : g.Settled p seen level) (hp : ∀ r ∈ level, ¬p r.node) :
    g.Settled p (g.nextLevel seen level).1 (g.nextLevel seen level).2 := by
  intro x hx
  rcases mem_nextLevel_of_mem_seen hx with hx | hx
  · refine Or.inr ?_
    rcases h x hx with ⟨r, hr, rfl⟩ | ⟨hpx, hnear⟩
    · exact ⟨hp r hr, fun y hy => mem_seen_nextLevel.mpr (.inr ⟨r, hr, hy⟩)⟩
    · exact ⟨hpx, fun y hy => mem_seen_nextLevel.mpr (.inl (hnear y hy))⟩
  · exact Or.inl hx

/-- Everything that can be reached from the nodes seen so far is without the property. -/
def Barren (g : FiniteGraph α) (p : α → Bool) (seen : Std.TreeSet α) : Prop :=
  ∀ x ∈ seen, ∀ y, g.Leads x y → ¬p y

omit [Std.TransOrd α] [Std.LawfulEqOrd α] in
/-- With no level left, nothing new can be reached. -/
theorem Settled.barren {g : FiniteGraph α} {p : α → Bool} {seen : Std.TreeSet α}
    (h : g.Settled p seen []) : g.Barren p seen := by
  have hclosed : ∀ x ∈ seen, ¬p x ∧ ∀ y ∈ g.neighbors x, y ∈ seen :=
    fun x hx => (h x hx).resolve_left (by simp)
  intro x hx y hlead
  have hy : y ∈ seen := by
    induction hlead with
    | refl => exact hx
    | tail _ hstep ih => exact (hclosed _ ih).2 _ hstep
  exact (hclosed y hy).1

theorem barren_of_searchFrom_eq_none {g : FiniteGraph α} {p : α → Bool} {fuel : Nat}
    {seen : Std.TreeSet α} {level : List (Route α)} (hsettled : g.Settled p seen level)
    (hfuel : level = [] ∨ (g.unseen seen).length < fuel)
    (h : g.searchFrom p fuel seen level = none) : g.Barren p seen := by
  -- A level that leads on sees a new node, so the fuel outlasts the levels.
  induction fuel generalizing seen level with
  | zero =>
    rcases hfuel with rfl | hlt
    · exact hsettled.barren
    · exact absurd hlt (Nat.not_lt_zero _)
  | succ fuel ih =>
    rw [searchFrom] at h
    split at h
    · rename_i hempty
      rw [List.isEmpty_iff.mp hempty] at hsettled
      exact hsettled.barren
    · rename_i hne
      split at h
      · exact absurd h (by simp)
      · rename_i hfind
        have hp : ∀ r ∈ level, ¬p r.node := List.find?_eq_none.mp hfind
        have hlt := hfuel.resolve_left fun he => hne (List.isEmpty_iff.mpr he)
        exact fun x hx =>
          ih (hsettled.nextLevel hp) (fuel_nextLevel hlt level) h x
            (mem_seen_nextLevel.mpr (.inl hx))

theorem mem_singleton_seen {start x : α} :
    x ∈ (Std.TreeSet.empty.insert start : Std.TreeSet α) ↔ x = start := by
  rw [Std.TreeSet.mem_insert, Std.LawfulEqCmp.compare_eq_iff_eq]
  constructor
  · rintro (rfl | hx)
    · rfl
    · exact absurd hx Std.TreeSet.not_mem_emptyc
  · rintro rfl
    exact Or.inl rfl

/-- **What is found is a simple path from the start to a node with the property.** -/
theorem search_isRoute {g : FiniteGraph α} {start : α} {p : α → Bool} {r : Route α}
    (h : g.search start p = some r) : g.IsRoute start r ∧ p r.node := by
  refine searchFrom_isRoute (fun r' hr' => ?_) h
  obtain rfl := List.mem_singleton.mp hr'
  refine ⟨.start g start, fun x hx => mem_singleton_seen.mpr ?_⟩
  exact List.mem_singleton.mp hx

/-- **What can be reached is found.** -/
theorem search_isSome {g : FiniteGraph α} {start x : α} {p : α → Bool} (hlead : g.Leads start x)
    (hp : p x) : ∃ r, g.search start p = some r := by
  by_contra hnone
  have h : g.search start p = none :=
    Option.eq_none_iff_forall_ne_some.mpr fun r hr => hnone ⟨r, hr⟩
  have hbarren := barren_of_searchFrom_eq_none
    (fun y hy => .inl ⟨⟨start, []⟩, List.mem_singleton_self _, (mem_singleton_seen.mp hy).symm⟩)
    (.inr (Nat.lt_succ_of_le (List.length_filter_le _ _))) h
  exact hbarren start (mem_singleton_seen.mpr rfl) x hlead hp

end Level

end FiniteGraph

end QubitRouting
