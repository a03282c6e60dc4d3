import QubitRouting.Proofs.Graph.Queue

/-!
# Shortest paths and nearest nodes

A *walk* is a list of nodes, each of them a neighbour of the one before (`IsWalk`); it may turn
back, go round in circles and lead over links in one direction only. Two facts say all about the
searches, whatever the graph looks like:

* a shortest path is a walk that meets no node twice, none has fewer links, and there is one
  whenever there is a walk at all (`shortestPath_exact`);
* a traversal comes to each node that can be reached once, nearer ones first, so that what it comes
  to first among the nodes with some property is as near as any of them (`order_exact`).

Both hold as well of the searches that are made with a queue (`Proofs/Graph/Queue.lean`).
-/

set_option autoImplicit false

namespace QubitRouting

namespace FiniteGraph

variable {α : Type} {g : FiniteGraph α} {a b start x y : α} {n : Nat} {walk : List α}

/-! ## Walks -/

/-- A list of nodes from `a` to `b`, each of them a neighbour of the one before. -/
structure IsWalk (g : FiniteGraph α) (a b : α) (walk : List α) : Prop where
  begins : walk.head? = some a
  ends : walk.getLast? = some b
  chain : walk.IsChain fun x y => y ∈ g.neighbors x

/-- A walk leads along one link less than it has nodes. -/
theorem IsWalk.leadsIn (h : g.IsWalk a b walk) : g.LeadsIn a (walk.length - 1) b := by
  cases walk with
  | nil => simpa using h.begins
  | cons c rest =>
    obtain rfl : c = a := Option.some.inj h.begins
    obtain ⟨-, hends, hchain⟩ := h
    induction rest generalizing c with
    | nil =>
      rw [show c = b from Option.some.inj hends]
      exact .refl
    | cons d rest ih =>
      rw [List.getLast?_cons_cons] at hends
      obtain ⟨hstep, hchain⟩ := List.isChain_cons_cons.mp hchain
      have htrans := (leadsIn_one_iff.mpr hstep).trans (ih d hends hchain)
      simpa [Nat.add_comm] using htrans

theorem LeadsIn.exists_isWalk (h : g.LeadsIn a n b) : ∃ walk, g.IsWalk a b walk := by
  induction h with
  | refl => exact ⟨[a], rfl, rfl, .singleton a⟩
  | @tail n b c _ hstep ih =>
    obtain ⟨walk, hbegins, hends, hchain⟩ := ih
    refine ⟨walk ++ [c], ?_, by simp, ?_⟩
    · rw [List.head?_append, hbegins]
      rfl
    · refine List.isChain_append.mpr ⟨hchain, .singleton c, ?_⟩
      intro x hx y hy
      obtain rfl : b = x := Option.some.inj (hends.symm.trans hx)
      obtain rfl : c = y := Option.some.inj hy
      exact hstep

variable [Ord α] [Std.TransOrd α] [Std.LawfulEqOrd α] [BEq α] [LawfulBEq α]

/-- There is a shortest path whenever there is a walk. -/
theorem shortestPath_eq_none_iff : g.shortestPath a b = none ↔ ¬∃ walk, g.IsWalk a b walk := by
  rw [shortestPath, Option.map_eq_none_iff, not_exists]
  constructor
  · intro hnone walk hwalk
    obtain ⟨r, hr⟩ := search_isSome (p := (· == b)) hwalk.leadsIn.leads (beq_self_eq_true b)
    rw [hnone] at hr
    cases hr
  · intro h
    cases hr : g.search a (· == b) with
    | none => rfl
    | some r =>
      obtain ⟨hroute, hnode⟩ := search_isRoute hr
      rw [← eq_of_beq hnode] at h
      obtain ⟨walk, hwalk⟩ := hroute.leadsIn.exists_isWalk
      exact absurd hwalk (h walk)

theorem isWalk_of_shortestPath {path : List α} (h : g.shortestPath a b = some path) :
    g.IsWalk a b path ∧ path.Nodup := by
  obtain ⟨r, hr, rfl⟩ := Option.map_eq_some_iff.mp h
  obtain ⟨hroute, hnode⟩ := search_isRoute hr
  refine ⟨⟨hroute.head?_path, ?_, hroute.isPath.chain⟩, hroute.isPath.nodup⟩
  rw [getLast?_path, eq_of_beq hnode]

omit [Std.TransOrd α] [Std.LawfulEqOrd α] [LawfulBEq α] in
/-- The distance counts the links of a shortest path. -/
theorem distance_eq_map_shortestPath (g : FiniteGraph α) (a b : α) :
    g.distance a b = (g.shortestPath a b).map fun path => path.length - 1 := by
  rw [distance, shortestPath, Option.map_map]
  congr 1
  funext r
  simp [Route.path, Route.steps]

/-- No walk has fewer nodes than a shortest path. -/
theorem length_le_of_shortestPath {path : List α} (h : g.shortestPath a b = some path)
    (hwalk : g.IsWalk a b walk) : path.length ≤ walk.length := by
  obtain ⟨r, hr, rfl⟩ := Option.map_eq_some_iff.mp h
  have hsteps : r.steps ≤ walk.length - 1 := search_steps_le hr hwalk.leadsIn (beq_self_eq_true b)
  have hpos : 0 < walk.length := by
    rw [List.length_pos_iff]
    intro hnil
    simpa [hnil] using hwalk.begins
  simp only [Route.path, List.length_reverse, List.length_cons]
  have hlength : r.back.length = r.steps := rfl
  omega

/-- **Shortest paths**, on every graph: there is none if and only if there is no walk; a shortest
path is a walk without repetitions, and no walk has fewer links; the distance is the number of its
links. The search with a queue comes to the same answer, and finds all the parents that it looks up
on the way back. -/
theorem shortestPath_exact (g : FiniteGraph α) (a b : α) :
    g.pathByQueue a b = some (g.shortestPath a b) ∧
      (g.shortestPath a b = none ↔ ¬∃ walk, g.IsWalk a b walk) ∧
      (∀ path, g.shortestPath a b = some path →
        g.IsWalk a b path ∧ path.Nodup ∧ ∀ walk, g.IsWalk a b walk → path.length ≤ walk.length) ∧
      g.distance a b = (g.shortestPath a b).map fun path => path.length - 1 := by
  refine ⟨g.pathByQueue_eq a b, shortestPath_eq_none_iff, ?_, g.distance_eq_map_shortestPath a b⟩
  intro path hpath
  obtain ⟨hwalk, hnodup⟩ := isWalk_of_shortestPath hpath
  exact ⟨hwalk, hnodup, fun walk hwalk' => length_le_of_shortestPath hpath hwalk'⟩

/-- A graph with links in one direction, a link from a node to itself, a repeated one, and a node
without neighbours of its own: the way from `0` to `9` takes three links, and there is no way
back. -/
theorem shortestPath_exact_directed :
    let g := FiniteGraph.ofTable [(0, [0, 1, 1, 2]), (1, [0, 3]), (2, [3]), (3, [9])]
    g.shortestPath 0 9 = some [0, 1, 3, 9] ∧ (∀ walk, g.IsWalk 0 9 walk → 4 ≤ walk.length) ∧
      g.pathByQueue 0 9 = some (some [0, 1, 3, 9]) ∧ ¬∃ walk, g.IsWalk 9 0 walk := by
  intro g
  have hpath : g.shortestPath 0 9 = some [0, 1, 3, 9] := by decide +kernel
  have hnone : g.shortestPath 9 0 = none := by decide +kernel
  obtain ⟨hqueue, -, hleast, -⟩ := shortestPath_exact g 0 9
  rw [hpath] at hqueue
  exact ⟨hpath, (hleast _ hpath).2.2, hqueue, (shortestPath_exact g 9 0).2.1.mp hnone⟩

/-! ## Nearest nodes -/

/-- Both nodes can be reached from the start, and the first one is not further away. -/
def NoFurther (g : FiniteGraph α) (start x y : α) : Prop :=
  ∃ d e, g.distance start x = some d ∧ g.distance start y = some e ∧ d ≤ e

theorem noFurther_refl (h : x ∈ g.order start) : g.NoFurther start x x := by
  obtain ⟨r, hr, rfl⟩ := List.mem_map.mp h
  exact ⟨r.steps, r.steps, distance_of_mem_routes hr, distance_of_mem_routes hr, Nat.le_refl _⟩

/-- The first node of the order with a property is as near as any of them. -/
theorem noFurther_of_find? {p : α → Bool} (h : (g.order start).find? p = some x)
    (hy : y ∈ g.order start) (hp : p y) : g.NoFurther start x y := by
  have hpairwise : (g.order start).Pairwise (g.NoFurther start) := pairwise_distance_order g start
  have hrefl := noFurther_refl (List.mem_of_find?_eq_some h)
  obtain ⟨-, before, after, hsplit, hbefore⟩ := List.find?_eq_some_iff_append.mp h
  rw [hsplit, List.mem_append, List.mem_cons] at hy
  rcases hy with hy | rfl | hy
  · have hnot := hbefore y hy
    rw [hp] at hnot
    cases hnot
  · exact hrefl
  · rw [hsplit, List.pairwise_append, List.pairwise_cons] at hpairwise
    exact hpairwise.2.1.1 y hy

/-- **Traversals and nearest nodes**, on every graph: a traversal comes to each node that can be
reached once and to no other, in the order of the distance, also when it is made with a queue. So
the nearest node with a property is missing only if no node that can be reached has it, and no other
one that has it is nearer. -/
theorem order_exact (g : FiniteGraph α) (start : α) :
    g.orderByQueue start = some (g.order start) ∧
      (∀ x, x ∈ g.order start ↔ g.Leads start x) ∧ (g.order start).Nodup ∧
      (g.order start).Pairwise (g.NoFurther start) ∧
      ∀ free : α → Bool,
        (g.nearest start free = none ↔ ∀ x, g.Leads start x → ¬free x) ∧
        ∀ x, g.nearest start free = some x →
          free x ∧ g.Leads start x ∧ ∀ y, g.Leads start y → free y → g.NoFurther start x y := by
  have hmem : ∀ x, x ∈ g.order start ↔ g.Leads start x := by
    classical
    intro x
    exact mem_order_iff
  refine ⟨g.orderByQueue_eq start, hmem, g.nodup_order start, g.pairwise_distance_order start, ?_⟩
  intro free
  rw [nearest_eq_find?]
  constructor
  · rw [List.find?_eq_none]
    simp only [hmem]
  · intro x hx
    refine ⟨List.find?_some hx, (hmem x).mp (List.mem_of_find?_eq_some hx), ?_⟩
    intro y hy hfree
    exact noFurther_of_find? hx ((hmem y).mpr hy) hfree

/-- With links in one direction: from `1` the traversal comes to `0` and `3` first, and the nearest
node that is not among them is `2`, which is not further away than `9`; from `3` no such node but
`9` can be reached. -/
theorem order_exact_directed :
    let g := FiniteGraph.ofTable [(0, [0, 1, 1, 2]), (1, [0, 3]), (2, [3]), (3, [9])]
    g.order 1 = [1, 0, 3, 2, 9] ∧ g.orderByQueue 1 = some [1, 0, 3, 2, 9] ∧
      g.nearest 1 (· ∉ [0, 1, 3]) = some 2 ∧ g.NoFurther 1 2 9 ∧ g.nearest 3 (· < 3) = none ∧
        ¬g.Leads 3 2 := by
  intro g
  have horder : g.order 1 = [1, 0, 3, 2, 9] := by decide +kernel
  have hnearest : g.nearest 1 (· ∉ [0, 1, 3]) = some 2 := by decide +kernel
  have hnone : g.nearest 3 (· < 3) = none := by decide +kernel
  obtain ⟨hqueue, hmem, -, -, hnear⟩ := order_exact g 1
  obtain ⟨-, -, -, -, hnear'⟩ := order_exact g 3
  have hnine : g.Leads 1 9 := (hmem 9).mp (by rw [horder]; decide)
  rw [horder] at hqueue
  refine ⟨horder, hqueue, hnearest, ((hnear _).2 2 hnearest).2.2 9 hnine (by decide), hnone, ?_⟩
  intro hleads
  exact (hnear' _).1.mp hnone 2 hleads (by decide)

end FiniteGraph

end QubitRouting
