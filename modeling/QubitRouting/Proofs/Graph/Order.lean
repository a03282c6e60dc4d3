import Mathlib.Data.List.Perm.Subperm
import QubitRouting.Proofs.Graph.Distance
import QubitRouting.Proofs.Graph.Parts

/-!
# The order of a traversal

A traversal goes from level to level. The routes of one level have the same number of steps and end
at different nodes, and the next level holds only nodes that have not been seen (`IsLevel`). So the
routes of all levels together are in the order of their steps, and no two of them end at the same
node (`pairwise_routes`). Each of them is the one that a search for its end finds
(`search_of_mem_routes`), so that its steps are the distance, and the nearest node with a property
is the first one in this order that has it (`nearest_eq_find?`).
-/

set_option autoImplicit false

namespace QubitRouting

namespace FiniteGraph

variable {α : Type} [Ord α] [Std.TransOrd α] [Std.LawfulEqOrd α] {g : FiniteGraph α} {start x : α}
  {k fuel : Nat} {seen : Std.TreeSet α} {level : List (Route α)} {r : Route α}

/-! ## Levels -/

/-- The routes that have been found end at different nodes, all of them seen. -/
structure Discovery.Distinct (d : Discovery α) : Prop where
  seen : ∀ r ∈ d.found, r.node ∈ d.seen
  nodup : (d.found.map (·.node)).Nodup

theorem Discovery.Distinct.visit {d : Discovery α} (h : d.Distinct) (r : Route α) (b : α) :
    (d.visit r b).Distinct := by
  constructor
  · intro r' hr'
    rw [mem_seen_visit]
    rw [Discovery.visit] at hr'
    split at hr'
    · exact Or.inl (h.seen r' hr')
    · rcases List.mem_cons.mp hr' with rfl | hr'
      · exact Or.inr rfl
      · exact Or.inl (h.seen r' hr')
  · unfold Discovery.visit
    split
    · exact h.nodup
    · rename_i hnew
      rw [List.map_cons, List.nodup_cons]
      refine ⟨?_, h.nodup⟩
      intro hmem
      obtain ⟨r', hr', hnode⟩ := List.mem_map.mp hmem
      apply hnew
      rw [← Std.TreeSet.mem_iff_contains]
      exact (show r'.node = b from hnode) ▸ h.seen r' hr'

theorem Discovery.Distinct.visitArcs {d : Discovery α} (h : d.Distinct) (as : List (Route α × α)) :
    (visitArcs d as).Distinct := by
  induction as generalizing d with
  | nil => exact h
  | cons a as ih => exact ih (h.visit a.1 a.2)

/-- A level of a traversal: all routes have `k` steps, and they end at different nodes, which have
been seen. -/
structure IsLevel (k : Nat) (seen : Std.TreeSet α) (level : List (Route α)) : Prop where
  steps : ∀ r ∈ level, r.steps = k
  seen : ∀ r ∈ level, r.node ∈ seen
  nodup : (level.map (·.node)).Nodup

theorem IsLevel.first (start : α) : IsLevel 0 (Std.TreeSet.empty.insert start) [⟨start, []⟩] where
  steps r hr := by
    rw [List.mem_singleton.mp hr]
    rfl
  seen r hr := by
    rw [List.mem_singleton.mp hr]
    exact mem_singleton_seen.mpr rfl
  nodup := List.nodup_singleton start

theorem IsLevel.next (h : IsLevel k seen level) (g : FiniteGraph α) :
    IsLevel (k + 1) (g.nextLevel seen level).1 (g.nextLevel seen level).2 := by
  have hdistinct : (level.foldl g.extend ⟨seen, []⟩).Distinct := by
    rw [foldl_extend]
    exact Discovery.Distinct.visitArcs ⟨by simp, by simp⟩ _
  constructor
  · intro r hr
    obtain ⟨r', hr', b, -, -, rfl⟩ := exists_step_of_mem_nextLevel hr
    show r'.steps + 1 = k + 1
    rw [h.steps r' hr']
  · intro r hr
    exact hdistinct.seen r (List.mem_reverse.mp hr)
  · rw [nextLevel, List.map_reverse, List.nodup_reverse]
    exact hdistinct.nodup

/-- What is on the next level, or not even seen by then, has not been seen yet. -/
theorem not_mem_seen_of_next
    (h : r ∈ (g.nextLevel seen level).2 ∨ r.node ∉ (g.nextLevel seen level).1) : r.node ∉ seen := by
  rcases h with hmem | hnew
  · obtain ⟨r', -, b, -, hb, rfl⟩ := exists_step_of_mem_nextLevel hmem
    exact hb
  · intro hseen
    exact hnew (mem_seen_nextLevel.mpr (.inl hseen))

/-- What lies ahead of a level has no fewer steps, and is new unless it belongs to the level. -/
theorem IsLevel.ahead (h : IsLevel k seen level) (hr : r ∈ (g.levelsFrom fuel seen level).flatten) :
    k ≤ r.steps ∧ (r ∈ level ∨ r.node ∉ seen) := by
  induction fuel generalizing seen level k with
  | zero => simp [levelsFrom] at hr
  | succ fuel ih =>
    rw [levelsFrom] at hr
    split at hr
    · simp at hr
    · rcases List.mem_append.mp hr with hr | hr
      · exact ⟨Nat.le_of_eq (h.steps r hr).symm, Or.inl hr⟩
      · obtain ⟨hle, hnew⟩ := ih (h.next g) hr
        exact ⟨by omega, Or.inr (not_mem_seen_of_next hnew)⟩

theorem IsLevel.pairwise (h : IsLevel k seen level) :
    (g.levelsFrom fuel seen level).flatten.Pairwise fun r s => r.steps ≤ s.steps ∧
      r.node ≠ s.node := by
  induction fuel generalizing seen level k with
  | zero => exact List.Pairwise.nil
  | succ fuel ih =>
    rw [levelsFrom]
    split
    · exact List.Pairwise.nil
    · rw [List.flatten_cons, List.pairwise_append]
      refine ⟨?_, ih (h.next g), ?_⟩
      · have hnodup := List.pairwise_map.mp h.nodup
        refine hnodup.imp_of_mem ?_
        intro r s hr hs hne
        exact ⟨by rw [h.steps r hr, h.steps s hs], hne⟩
      · -- the level is before all others, and they are new when it has been seen
        intro r hr s hs
        obtain ⟨hle, hnew⟩ := (h.next g).ahead hs
        have hsteps := h.steps r hr
        refine ⟨by omega, ?_⟩
        intro heq
        exact not_mem_seen_of_next hnew (heq ▸ h.seen r hr)

/-! ## Routes -/

/-- **The routes of a traversal** are in the order of their steps, and end at different nodes. -/
theorem pairwise_routes (g : FiniteGraph α) (start : α) :
    (g.routes start).Pairwise fun r s => r.steps ≤ s.steps ∧ r.node ≠ s.node :=
  (IsLevel.first start).pairwise

theorem nodup_order (g : FiniteGraph α) (start : α) : (g.order start).Nodup := by
  rw [order, List.Nodup, List.pairwise_map]
  exact (pairwise_routes g start).imp And.right

omit [Std.TransOrd α] [Std.LawfulEqOrd α] in
/-- The traversal begins at its start. -/
theorem start_mem_routes (g : FiniteGraph α) (start : α) : ⟨start, []⟩ ∈ g.routes start := by
  rw [routes, levelBound, levelsFrom, if_neg (by simp), List.flatten_cons]
  exact List.mem_append_left _ (List.mem_singleton_self _)

omit [Ord α] [Std.TransOrd α] [Std.LawfulEqOrd α] in
/-- Not more different nodes can be reached than there are levels at most. -/
theorem length_le_levelBound {xs : List α} (hnodup : xs.Nodup) (h : ∀ x ∈ xs, g.Leads start x) :
    xs.length ≤ g.levelBound := by
  have hsub : xs ⊆ start :: g.nodes := by
    intro x hx
    rw [List.mem_cons]
    exact (h x hx).eq_or_mem_nodes
  exact (List.subperm_of_subset hnodup hsub).length_le

variable [BEq α] [LawfulBEq α]

/-- A search for the end of a route of the traversal finds this route. -/
theorem search_of_mem_routes (hr : r ∈ g.routes start) : g.search start (· == r.node) = some r := by
  obtain ⟨before, after, hsplit⟩ := List.append_of_mem hr
  have hpairwise := pairwise_routes g start
  rw [hsplit, List.pairwise_append] at hpairwise
  rw [search_eq_find?, hsplit, List.find?_append, List.find?_eq_none.mpr, Option.none_or]
  · simp
  · intro s hs
    simp [(hpairwise.2.2 s hs r List.mem_cons_self).2]

theorem isRoute_of_mem_routes (hr : r ∈ g.routes start) : g.IsRoute start r :=
  (search_isRoute (search_of_mem_routes hr)).1

theorem distance_of_mem_routes (hr : r ∈ g.routes start) :
    g.distance start r.node = some r.steps := by
  rw [distance, search_of_mem_routes hr, Option.map_some]

/-- **The order of a traversal is by distance.** -/
theorem pairwise_distance_order (g : FiniteGraph α) (start : α) :
    (g.order start).Pairwise fun x y =>
      ∃ d e, g.distance start x = some d ∧ g.distance start y = some e ∧ d ≤ e := by
  rw [order, List.pairwise_map]
  refine (pairwise_routes g start).imp_of_mem ?_
  intro r s hr hs hrs
  exact ⟨r.steps, s.steps, distance_of_mem_routes hr, distance_of_mem_routes hs, hrs.1⟩

omit [Std.TransOrd α] [Std.LawfulEqOrd α] [BEq α] [LawfulBEq α] in
/-- The search for a node with a property goes through the nodes in their order. -/
theorem nearest_eq_find? (g : FiniteGraph α) (start : α) (p : α → Bool) :
    g.nearest start p = (g.order start).find? p := by
  rw [nearest, search_eq_find?, order, List.find?_map]
  rfl

end FiniteGraph

end QubitRouting
