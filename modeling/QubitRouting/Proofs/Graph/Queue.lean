import QubitRouting.Proofs.Graph.Order
import Std.Data.TreeMap.Lemmas

/-!
# Searching with a queue

A breadth-first search is often told without levels and routes: the nodes that have been discovered
wait in a queue, first come first served, and a table keeps for each of them the *parent* it was
discovered from. A search for one node ends as soon as that node is discovered, and the path is read
off the table backwards, from parent to parent.

This is the same search. The queue always holds what is left of a level and, behind it, what has
been found of the next one (`Trail.Follows`), and the table leads back along all routes in the queue
(`Parents.Records`). So the queue takes up the nodes in the order of the traversal, whether it comes
to an end or is stopped (`ahead_sweep`): the order is the same (`orderByQueue_eq`), and so is the
path, for which no parent is ever missing (`pathByQueue_eq`).
-/

set_option autoImplicit false

namespace QubitRouting

namespace FiniteGraph

variable {α : Type} [Ord α]

/-- The node from which each node was discovered. -/
abbrev Parents (α : Type) [Ord α] := Std.TreeMap α α

/-- A search with a queue under way: the nodes that wait, and the parents of all that have been
discovered. -/
structure Trail (α : Type) [Ord α] where
  waiting : List α
  parents : Parents α

/-- At first the start waits, which is its own parent. -/
def Trail.first (start : α) : Trail α := ⟨[start], Std.TreeMap.empty.insert start start⟩

/-- Takes note of a neighbour of `a`, unless it has been discovered. A wanted node ends the
search. -/
def Trail.note (wanted : α → Bool) (a : α) (s : Trail α) (b : α) : Except (Parents α) (Trail α) :=
  if s.parents.contains b then .ok s
  else if wanted b then .error (s.parents.insert b a)
  else .ok ⟨s.waiting ++ [b], s.parents.insert b a⟩

/-- Takes up the nodes that wait, one after the other, until none is left or a wanted node has been
discovered. What comes out are the nodes that were taken up, or the parents at the moment of the
discovery. -/
def sweep (g : FiniteGraph α) (wanted : α → Bool) :
    Nat → Trail α → Option (Except (Parents α) (List α))
  | 0, _ => none
  | fuel + 1, s =>
    match s.waiting with
    | [] => some (.ok [])
    | a :: rest =>
      match (g.neighbors a).foldlM (Trail.note wanted a) ⟨rest, s.parents⟩ with
      | .error parents => some (.error parents)
      | .ok s => (g.sweep wanted fuel s).map (·.map (a :: ·))

/-- From a node back to the start, from parent to parent. There is no answer if a parent is
missing. -/
def Parents.walkBack [BEq α] (parents : Parents α) (start : α) : Nat → α → Option (List α)
  | 0, _ => none
  | fuel + 1, b =>
    if b == start then some [b]
    else do
      let a ← parents[b]?
      let path ← parents.walkBack start fuel a
      return b :: path

/-- The nodes that can be reached, in the order in which a queue takes them up. -/
def orderByQueue (g : FiniteGraph α) (start : α) : Option (List α) :=
  match g.sweep (fun _ => false) (g.levelBound + 1) (.first start) with
  | some (.ok order) => some order
  | _ => none

/-- A path that is read off the parents, or `some none` if the target was not discovered. -/
def pathByQueue [BEq α] (g : FiniteGraph α) (source target : α) : Option (Option (List α)) :=
  if source == target then some (some [source])
  else
    match g.sweep (· == target) (g.levelBound + 1) (.first source) with
    | none => none
    | some (.ok _) => some none
    | some (.error parents) =>
      (parents.walkBack source g.levelBound target).map fun path => some path.reverse

/-! ## Parents -/

variable {g : FiniteGraph α} {wanted : α → Bool} {parents : Parents α} {start b : α} {r : Route α}

/-- The parents lead back along a route. -/
def Parents.Records (parents : Parents α) (r : Route α) : Prop :=
  (r.node :: r.back).IsChain fun b a => parents[b]? = some a

section

variable [Std.TransOrd α] [Std.LawfulEqOrd α]

/-- A new node does not change the way back from the others. -/
theorem Parents.Records.insert (h : parents.Records r) (hnew : b ∉ parents) (a : α) :
    Parents.Records (parents.insert b a) r := by
  refine List.IsChain.imp ?_ h
  intro x y hxy
  rw [Std.TreeMap.getElem?_insert, if_neg]
  · exact hxy
  · intro hbx
    rw [Std.LawfulEqCmp.compare_eq_iff_eq] at hbx
    apply hnew
    rw [hbx, Std.TreeMap.mem_iff_isSome_getElem?, hxy]
    rfl

/-- A new node leads back to the one that it was discovered from. -/
theorem Parents.Records.step (h : parents.Records r) (hnew : b ∉ parents) :
    Parents.Records (parents.insert b r.node) (r.step b) := by
  exact List.isChain_cons_cons.mpr ⟨Std.TreeMap.getElem?_insert_self, h.insert hnew r.node⟩

omit [Std.TransOrd α] [Std.LawfulEqOrd α] in
/-- **Walking back never misses a parent**: it goes along the whole route. -/
theorem Parents.Records.walkBack_eq [BEq α] [LawfulBEq α] (h : parents.Records r)
    (hr : g.IsRoute start r) {fuel : Nat} (hfuel : r.steps < fuel) :
    parents.walkBack start fuel r.node = some (r.node :: r.back) := by
  obtain ⟨node, back⟩ := r
  induction back generalizing node fuel with
  | nil =>
    obtain rfl : node = start := Option.some.inj hr.begins
    obtain ⟨fuel, rfl⟩ := Nat.exists_eq_add_one_of_ne_zero (Nat.ne_zero_of_lt hfuel)
    simp [Parents.walkBack]
  | cons a back ih =>
    obtain ⟨fuel, rfl⟩ := Nat.exists_eq_add_one_of_ne_zero (Nat.ne_zero_of_lt hfuel)
    obtain ⟨hparent, hrest⟩ := List.isChain_cons_cons.mp h
    -- the start is behind the node, and no node comes twice
    have hne : node ≠ start := by
      intro heq
      have hlast : start ∈ a :: back := List.mem_of_getLast? hr.tail.begins
      exact (List.nodup_cons.mp hr.nodup).1 (heq ▸ hlast)
    have hback := ih a hrest hr.tail (Nat.lt_of_succ_lt_succ hfuel)
    simp only at hparent hback
    simp [Parents.walkBack, hne, hparent, hback]

/-! ## One node of the queue -/

variable {s : Trail α} {d : Discovery α} {rest : List (Route α)}

/-- The queue holds what is left of a level and, behind it, what has been found of the next one.
None of it is wanted, and the parents lead back from all of it. -/
structure Trail.Follows (wanted : α → Bool) (s : Trail α) (d : Discovery α)
    (rest : List (Route α)) : Prop where
  waiting : s.waiting = (rest ++ d.found.reverse).map (·.node)
  known : ∀ x, x ∈ s.parents ↔ x ∈ d.seen
  recorded : ∀ r ∈ rest ++ d.found.reverse, s.parents.Records r
  unwanted : ∀ r ∈ rest ++ d.found.reverse, ¬wanted r.node

/-- Where the queue is when it has looked around from the end of a route: it goes on, or it has
found a wanted node. -/
inductive Trail.Arrives (wanted : α → Bool) (d : Discovery α) (rest : List (Route α))
    (r : Route α) :
    Except (Parents α) (Trail α) → Prop where
  | on {s : Trail α} (hs : s.Follows wanted d rest) (hr : s.parents.Records r) :
      Arrives wanted d rest r (.ok s)
  | off {parents : Parents α} {r' : Route α} (hr' : r' ∈ d.found) (hwanted : wanted r'.node)
      (hrecords : parents.Records r') : Arrives wanted d rest r (.error parents)

theorem Trail.Follows.note (h : s.Follows wanted d rest) (hr : s.parents.Records r) (b : α) :
    Trail.Arrives wanted (d.visit r b) rest r (s.note wanted r.node b) := by
  have hiff : s.parents.contains b = d.seen.contains b := by
    rw [Bool.eq_iff_iff, ← Std.TreeMap.mem_iff_contains, ← Std.TreeSet.mem_iff_contains]
    exact h.known b
  rw [Trail.note, Discovery.visit, hiff]
  split
  · exact .on h hr
  · rename_i hseen
    have hnew : b ∉ s.parents := by
      rw [Std.TreeMap.mem_iff_contains, hiff]
      exact hseen
    have hstep := hr.step hnew
    split
    · rename_i hwanted
      exact .off List.mem_cons_self hwanted hstep
    · rename_i hwanted
      -- the new route waits behind all others
      have hbehind : ∀ {p : Route α → Prop}, (∀ r ∈ rest ++ d.found.reverse, p r) → p (r.step b) →
          ∀ r' ∈ rest ++ (r.step b :: d.found).reverse, p r' := by
        intro p hold hlast r' hr'
        rw [List.reverse_cons, ← List.append_assoc, List.mem_append, List.mem_singleton] at hr'
        rcases hr' with hr' | rfl
        · exact hold r' hr'
        · exact hlast
      refine .on ⟨?_, ?_, ?_, ?_⟩ (hr.insert hnew r.node)
      · simp [h.waiting, Route.step]
      · intro x
        rw [Std.TreeMap.mem_insert, Std.TreeSet.mem_insert, h.known]
      · exact hbehind (fun r' hr' => (h.recorded r' hr').insert hnew r.node) hstep
      · exact hbehind h.unwanted hwanted

/-- **One node of the queue**: all of its neighbours are discovered as on the level. -/
theorem Trail.Follows.notes (h : s.Follows wanted d rest) (hr : s.parents.Records r) (bs : List α) :
    Trail.Arrives wanted (bs.foldl (fun d b => d.visit r b) d) rest r
      (bs.foldlM (Trail.note wanted r.node) s) := by
  induction bs generalizing s d with
  | nil => exact .on h hr
  | cons b bs ih =>
    have hnote := h.note hr b
    rw [List.foldl_cons, List.foldlM_cons]
    generalize s.note wanted r.node b = x at hnote
    cases hnote with
    | on hs hr => exact ih hs hr
    | off hr' hwanted hrecords =>
      refine .off ?_ hwanted hrecords
      have hmap : bs.foldl (fun d b => d.visit r b) (d.visit r b) =
          visitArcs (d.visit r b) (bs.map (r, ·)) := by
        rw [visitArcs, List.foldl_map]
      rw [hmap]
      exact found_subset_visitArcs hr'

/-! ## The whole queue -/

variable {fuel k : Nat} {routes : List (Route α)} {seen : Std.TreeSet α} {level : List (Route α)}

/-- What comes out of the queue when these routes lie ahead: all of their ends, if none is wanted,
or the parents on the way back from one that is. -/
inductive Ahead (wanted : α → Bool) (routes : List (Route α)) :
    Option (Except (Parents α) (List α)) → Prop where
  | swept (hunwanted : ∀ r ∈ routes, ¬wanted r.node) :
      Ahead wanted routes (some (.ok (routes.map (·.node))))
  | stopped {parents : Parents α} {r : Route α} (hr : r ∈ routes) (hwanted : wanted r.node)
      (hrecords : parents.Records r) : Ahead wanted routes (some (.error parents))

omit [Std.TransOrd α] [Std.LawfulEqOrd α] in
theorem Ahead.cons {x : Option (Except (Parents α) (List α))} (h : Ahead wanted routes x)
    (hr : ¬wanted r.node) : Ahead wanted (r :: routes) (x.map (·.map (r.node :: ·))) := by
  cases h with
  | swept hunwanted => exact .swept (List.forall_mem_cons.mpr ⟨hr, hunwanted⟩)
  | stopped hr' hwanted hrecords => exact .stopped (List.mem_cons_of_mem r hr') hwanted hrecords

omit [Std.TransOrd α] [Std.LawfulEqOrd α] in
/-- Nothing lies ahead when nobody waits. -/
theorem ahead_nil (hwaiting : s.waiting = []) (hfuel : 0 < fuel) :
    Ahead wanted [] (g.sweep wanted fuel s) := by
  obtain ⟨fuel, rfl⟩ := Nat.exists_eq_add_one_of_ne_zero (Nat.ne_zero_of_lt hfuel)
  rw [sweep, hwaiting]
  exact .swept (by simp)

omit [Std.TransOrd α] [Std.LawfulEqOrd α] in
/-- What has been found stays found on the way through a level. -/
theorem found_subset_foldl_extend (g : FiniteGraph α) (d : Discovery α) (rest : List (Route α)) :
    d.found ⊆ (rest.foldl g.extend d).found := by
  rw [foldl_extend]
  exact found_subset_visitArcs

/-- The queue goes through the rest of a level, and then on from what has been found by then. -/
theorem ahead_level (h : s.Follows wanted d rest)
    (hfound : (rest.foldl g.extend d).found ⊆ routes)
    (hnext : ∀ s' : Trail α, s'.Follows wanted (rest.foldl g.extend d) [] →
      Ahead wanted routes (g.sweep wanted fuel s')) :
    Ahead wanted (rest ++ routes) (g.sweep wanted (rest.length + fuel) s) := by
  induction rest generalizing s d with
  | nil =>
    rw [List.length_nil, Nat.zero_add]
    exact hnext s h
  | cons r rest ih =>
    have hwaiting : s.waiting = r.node :: (rest ++ d.found.reverse).map (·.node) := h.waiting
    have hpopped :
        Trail.Follows wanted ⟨(rest ++ d.found.reverse).map (·.node), s.parents⟩ d rest :=
      ⟨rfl, h.known, fun r' hr' => h.recorded r' (List.mem_cons_of_mem r hr'),
        fun r' hr' => h.unwanted r' (List.mem_cons_of_mem r hr')⟩
    have hnotes := hpopped.notes (h.recorded r List.mem_cons_self) (g.neighbors r.node)
    rw [List.length_cons, Nat.add_right_comm, sweep, hwaiting]
    simp only
    generalize (g.neighbors r.node).foldlM (Trail.note wanted r.node) _ = x at hnotes
    cases hnotes with
    | on hs _ => exact (ih hs hfound hnext).cons (h.unwanted r List.mem_cons_self)
    | off hr' hwanted hrecords =>
      have hmem := hfound (found_subset_foldl_extend g _ rest hr')
      exact .stopped (List.mem_append_right _ hmem) hwanted hrecords

omit [Std.TransOrd α] [Std.LawfulEqOrd α] in
/-- The level at hand is part of what lies ahead, if there is fuel for it. -/
theorem level_subset_levelsFrom (hfuel : level = [] ∨ (g.unseen seen).length < k) :
    level ⊆ (g.levelsFrom k seen level).flatten := by
  rcases hfuel with rfl | hlt
  · exact List.nil_subset _
  · obtain ⟨k, rfl⟩ := Nat.exists_eq_add_one_of_ne_zero (Nat.ne_zero_of_lt hlt)
    rw [levelsFrom]
    split
    · rename_i hempty
      rw [List.isEmpty_iff.mp hempty]
      exact List.nil_subset _
    · rw [List.flatten_cons]
      exact List.subset_append_left _ _

omit [Std.TransOrd α] [Std.LawfulEqOrd α] in
/-- What has been found is the next level when nothing is left of the one before. -/
theorem Trail.Follows.turn (h : s.Follows wanted d []) :
    s.Follows wanted ⟨d.seen, []⟩ d.found.reverse where
  waiting := by simpa using h.waiting
  known := h.known
  recorded := by simpa using h.recorded
  unwanted := by simpa using h.unwanted

/-- **The queue goes through the levels.** -/
theorem ahead_levels (h : s.Follows wanted ⟨seen, []⟩ level)
    (hfuel : level = [] ∨ (g.unseen seen).length < k)
    (hlt : (g.levelsFrom k seen level).flatten.length < fuel) :
    Ahead wanted (g.levelsFrom k seen level).flatten (g.sweep wanted fuel s) := by
  induction k generalizing s seen level fuel with
  | zero =>
    obtain rfl := hfuel.resolve_right (Nat.not_lt_zero _)
    exact ahead_nil h.waiting hlt
  | succ k ih =>
    by_cases hempty : level = []
    · subst hempty
      exact ahead_nil h.waiting hlt
    · have hflat : g.levelsFrom (k + 1) seen level =
          level :: g.levelsFrom k (g.nextLevel seen level).1 (g.nextLevel seen level).2 := by
        rw [levelsFrom, if_neg (by simpa using hempty)]
      have hfuel' := fuel_nextLevel (hfuel.resolve_left hempty) level
      rw [hflat, List.flatten_cons] at hlt ⊢
      rw [List.length_append] at hlt
      obtain ⟨more, rfl⟩ :=
        Nat.exists_eq_add_of_le (Nat.le_of_lt (Nat.lt_of_le_of_lt (Nat.le_add_right _ _) hlt))
      apply ahead_level h
      · intro r hr
        exact level_subset_levelsFrom hfuel' (List.mem_reverse.mpr hr)
      · intro s' hs'
        exact ih hs'.turn hfuel' (Nat.lt_of_add_lt_add_left hlt)

omit [Std.LawfulEqOrd α] in
theorem Trail.Follows.first (h : ¬wanted start) :
    (Trail.first start).Follows wanted ⟨Std.TreeSet.empty.insert start, []⟩ [⟨start, []⟩] where
  waiting := rfl
  known x := by
    rw [Trail.first, Std.TreeMap.mem_insert, Std.TreeSet.mem_insert]
    exact or_congr_right (iff_of_false Std.TreeMap.not_mem_emptyc Std.TreeSet.not_mem_emptyc)
  recorded r hr := by
    rw [List.mem_singleton.mp hr]
    exact .singleton start
  unwanted r hr := by
    rw [List.mem_singleton.mp hr]
    exact h

variable [BEq α] [LawfulBEq α]

/-- **The queue goes through the traversal**, to its end or to a wanted node. -/
theorem ahead_sweep (g : FiniteGraph α) (start : α) (wanted : α → Bool) (h : ¬wanted start) :
    Ahead wanted (g.routes start) (g.sweep wanted (g.levelBound + 1) (.first start)) := by
  have hleads : ∀ x ∈ g.order start, g.Leads start x := by
    intro x hx
    obtain ⟨r, hr, rfl⟩ := List.mem_map.mp hx
    exact (isRoute_of_mem_routes hr).leads
  have hlength := length_le_levelBound (nodup_order g start) hleads
  rw [order, List.length_map] at hlength
  apply ahead_levels (.first h)
  · right
    exact Nat.lt_succ_of_le (List.length_filter_le _ _)
  · exact Nat.lt_succ_of_le hlength

theorem orderByQueue_eq (g : FiniteGraph α) (start : α) :
    g.orderByQueue start = some (g.order start) := by
  have hahead := ahead_sweep g start (fun _ => false) (by simp)
  rw [orderByQueue]
  generalize g.sweep _ _ _ = x at hahead
  cases hahead with
  | swept _ => rfl
  | stopped _ hwanted _ => simp at hwanted

/-- **The path that is read off the parents** is the route of the traversal. -/
theorem pathByQueue_eq (g : FiniteGraph α) (source target : α) :
    g.pathByQueue source target = some (g.shortestPath source target) := by
  rw [pathByQueue, shortestPath]
  by_cases heq : source = target
  · subst heq
    rw [if_pos (beq_self_eq_true source), search_of_mem_routes (start_mem_routes g source)]
    rfl
  · have hne : ¬(source == target) = true := by simpa using heq
    have hahead := ahead_sweep g source (· == target) hne
    rw [if_neg hne]
    generalize g.sweep _ _ _ = x at hahead
    cases hahead with
    | swept hunwanted =>
      rw [search_eq_find?, List.find?_eq_none.mpr hunwanted]
      rfl
    | @stopped parents r hr hwanted hrecords =>
      obtain rfl := eq_of_beq hwanted
      have hroute := isRoute_of_mem_routes hr
      have hsteps : r.steps < g.levelBound :=
        length_le_levelBound hroute.nodup fun x hx => hroute.leads_of_mem hx
      simp only [search_of_mem_routes hr, hrecords.walkBack_eq hroute hsteps, Option.map_some]
      rfl

end

end FiniteGraph

end QubitRouting
