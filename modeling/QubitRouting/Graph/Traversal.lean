import Std.Data.TreeSet

/-!
# Breadth-first traversal

A finite graph is a neighbour function whose values stay within a list of nodes. Links may be
directed, and neighbours may repeat. Starting from one node, the traversal proceeds in levels: level
`k` holds the nodes at distance `k`, in the order in which they are discovered. Every node is
discovered along a *route*, which is a shortest path to it; all searches read off these routes.
-/

set_option autoImplicit false

namespace QubitRouting

/-- A finite directed graph. -/
structure FiniteGraph (α : Type) where
  neighbors : α → List α
  nodes : List α
  neighbors_mem : ∀ a, ∀ b ∈ neighbors a, b ∈ nodes

/-- The graph with these neighbour lists; of several lists for one node the last one counts. -/
def FiniteGraph.ofTable {α : Type} [DecidableEq α] (table : List (α × List α)) : FiniteGraph α where
  neighbors a := ((table.reverse.find? (·.1 = a)).map (·.2)).getD []
  nodes := table.flatMap (·.2)
  neighbors_mem a b hb := by
    cases h : table.reverse.find? (·.1 = a) with
    | none => simp [h] at hb
    | some entry =>
      have := List.mem_of_find?_eq_some h
      rw [h] at hb
      exact List.mem_flatMap.mpr ⟨entry, List.mem_reverse.mp this, hb⟩

/-- A path to `node`; `back` leads from its predecessor to the start. -/
structure Route (α : Type) where
  node : α
  back : List α
deriving Repr

namespace Route

/-- The nodes of the route, from the start. -/
def path {α : Type} (r : Route α) : List α := (r.node :: r.back).reverse

/-- The route prolonged by one step. -/
def step {α : Type} (r : Route α) (next : α) : Route α := ⟨next, r.node :: r.back⟩

/-- The number of steps. -/
def steps {α : Type} (r : Route α) : Nat := r.back.length

end Route

namespace FiniteGraph

variable {α : Type} [Ord α]

/-- The nodes seen so far, and the routes of the next level, last discovery first. -/
structure Discovery (α : Type) [Ord α] where
  seen : Std.TreeSet α
  found : List (Route α)

/-- Takes note of a node next to the end of a route, unless it has been seen. -/
def Discovery.visit (d : Discovery α) (r : Route α) (next : α) : Discovery α :=
  if d.seen.contains next then d else ⟨d.seen.insert next, r.step next :: d.found⟩

/-- The discoveries from one route. -/
def extend (g : FiniteGraph α) (d : Discovery α) (r : Route α) : Discovery α :=
  (g.neighbors r.node).foldl (fun d next => d.visit r next) d

/-- The discoveries from all routes of a level. -/
def nextLevel (g : FiniteGraph α) (seen : Std.TreeSet α) (level : List (Route α)) :
    Std.TreeSet α × List (Route α) :=
  let d := level.foldl g.extend ⟨seen, []⟩
  (d.seen, d.found.reverse)

/-- The levels from a given one on. -/
def levelsFrom (g : FiniteGraph α) : Nat → Std.TreeSet α → List (Route α) → List (List (Route α))
  | 0, _, _ => []
  | fuel + 1, seen, level =>
    if level.isEmpty then []
    else
      let (seen, next) := g.nextLevel seen level
      level :: g.levelsFrom fuel seen next

/-- The first route, from a given level on, to a node with property `p`. -/
def searchFrom (g : FiniteGraph α) (p : α → Bool) :
    Nat → Std.TreeSet α → List (Route α) → Option (Route α)
  | 0, _, _ => none
  | fuel + 1, seen, level =>
    if level.isEmpty then none
    else
      match level.find? (fun r => p r.node) with
      | some r => some r
      | none =>
        let (seen, next) := g.nextLevel seen level
        g.searchFrom p fuel seen next

/-- There are at most this many levels: each but the first holds a node that no other holds. -/
def levelBound (g : FiniteGraph α) : Nat := g.nodes.length + 1

/-- The routes to all nodes that can be reached from `start`, in the order of their discovery. -/
def routes (g : FiniteGraph α) (start : α) : List (Route α) :=
  (g.levelsFrom g.levelBound (Std.TreeSet.empty.insert start) [⟨start, []⟩]).flatten

/-- The nodes that can be reached from `start`, in breadth-first order. -/
def order (g : FiniteGraph α) (start : α) : List α := (g.routes start).map (·.node)

/-- The first route to a node with property `p`. -/
def search (g : FiniteGraph α) (start : α) (p : α → Bool) : Option (Route α) :=
  g.searchFrom p g.levelBound (Std.TreeSet.empty.insert start) [⟨start, []⟩]

/-- A nearest node with property `p`. -/
def nearest (g : FiniteGraph α) (start : α) (p : α → Bool) : Option α :=
  (g.search start p).map (·.node)

/-- A shortest path. -/
def shortestPath [BEq α] (g : FiniteGraph α) (source target : α) : Option (List α) :=
  (g.search source (· == target)).map (·.path)

/-- The length of a shortest path. -/
def distance [BEq α] (g : FiniteGraph α) (source target : α) : Option Nat :=
  (g.search source (· == target)).map (·.steps)

/-- The number of connected parts that `nodes` fall into, if links go both ways. -/
def partCount (g : FiniteGraph α) (nodes : List α) : Nat :=
  (nodes.foldl
    (fun (count, seen) a =>
      if seen.contains a then (count, seen)
      else (count + 1, (g.order a).foldl (fun (s : Std.TreeSet α) b => s.insert b) seen))
    (0, (Std.TreeSet.empty : Std.TreeSet α))).1

end FiniteGraph

end QubitRouting
