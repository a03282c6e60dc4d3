import QubitRouting.Proofs.Graph.Search

/-!
# The connected parts of a graph

The search looks through the routes of the traversal in order (`search_eq_find?`), so what is known
about searches is known about routes: the traversal comes to exactly the nodes that can be reached
(`mem_order_iff`). Parts are counted by traversals from nodes that no earlier one has come to, and
there is at most one part if and only if links lead from the first node to all others
(`partCount_le_one_iff`).
-/

set_option autoImplicit false

namespace QubitRouting

namespace FiniteGraph

variable {α : Type} [Ord α] {g : FiniteGraph α}

/-! ## Traversals -/

theorem searchFrom_eq_find? (g : FiniteGraph α) (p : α → Bool) (fuel : Nat) (seen : Std.TreeSet α)
    (level : List (Route α)) :
    g.searchFrom p fuel seen level = (g.levelsFrom fuel seen level).flatten.find? (p ·.node) := by
  induction fuel generalizing seen level with
  | zero => rfl
  | succ fuel ih =>
    rw [searchFrom, levelsFrom]
    split
    · rfl
    · rw [List.flatten_cons, List.find?_append, ← ih]
      cases level.find? (p ·.node) with
      | none => rfl
      | some r => rfl

/-- The search goes through the routes of the traversal. -/
theorem search_eq_find? (g : FiniteGraph α) (start : α) (p : α → Bool) :
    g.search start p = (g.routes start).find? (p ·.node) :=
  g.searchFrom_eq_find? p _ _ _

/-! ## Counting -/

/-- One step of the count: a node that has not been seen begins a new part. -/
def partStep (g : FiniteGraph α) (s : Nat × Std.TreeSet α) (a : α) : Nat × Std.TreeSet α :=
  if s.2.contains a then s
  else (s.1 + 1, (g.order a).foldl (fun (seen : Std.TreeSet α) b => seen.insert b) s.2)

theorem partCount_eq (g : FiniteGraph α) (nodes : List α) :
    g.partCount nodes = (nodes.foldl g.partStep (0, Std.TreeSet.empty)).1 := rfl

/-- The count stays while all nodes have been seen. -/
theorem foldl_partStep_of_seen {s : Nat × Std.TreeSet α} {nodes : List α}
    (h : ∀ b ∈ nodes, b ∈ s.2) :
    nodes.foldl g.partStep s = s := by
  induction nodes with
  | nil => rfl
  | cons b nodes ih =>
    obtain ⟨hb, hnodes⟩ := List.forall_mem_cons.mp h
    have hstep : g.partStep s b = s := if_pos (Std.TreeSet.mem_iff_contains.mp hb)
    rw [List.foldl_cons, hstep, ih hnodes]

theorem le_foldl_partStep (s : Nat × Std.TreeSet α) (nodes : List α) :
    s.1 ≤ (nodes.foldl g.partStep s).1 := by
  induction nodes generalizing s with
  | nil => exact Nat.le_refl _
  | cons b nodes ih =>
    apply Nat.le_trans ?_ (ih (g.partStep s b))
    unfold partStep
    split
    · exact Nat.le_refl _
    · exact Nat.le_succ _

/-- A count that stays has seen all nodes. -/
theorem seen_of_foldl_partStep {s : Nat × Std.TreeSet α} {nodes : List α}
    (h : (nodes.foldl g.partStep s).1 ≤ s.1) : ∀ b ∈ nodes, b ∈ s.2 := by
  induction nodes with
  | nil => exact fun b hb => absurd hb List.not_mem_nil
  | cons a nodes ih =>
    rw [List.foldl_cons] at h
    by_cases ha : s.2.contains a
    · have hstep : g.partStep s a = s := if_pos ha
      rw [hstep] at h
      exact List.forall_mem_cons.mpr ⟨Std.TreeSet.mem_iff_contains.mpr ha, ih h⟩
    · have hstep : (g.partStep s a).1 = s.1 + 1 := by rw [partStep, if_neg ha]
      have hle := le_foldl_partStep (g := g) (g.partStep s a) nodes
      omega

/-! ## What can be reached -/

variable [Std.TransOrd α] [Std.LawfulEqOrd α]

theorem mem_foldl_insert_seen {seen : Std.TreeSet α} {xs : List α} {x : α} :
    x ∈ xs.foldl (fun (seen : Std.TreeSet α) b => seen.insert b) seen ↔ x ∈ seen ∨ x ∈ xs := by
  induction xs generalizing seen with
  | nil => simp
  | cons b xs ih =>
    rw [List.foldl_cons, ih, Std.TreeSet.mem_insert, Std.LawfulEqCmp.compare_eq_iff_eq,
      List.mem_cons, eq_comm, or_assoc]
    exact or_left_comm

variable [DecidableEq α]

/-- **The traversal comes to the nodes that can be reached.** -/
theorem mem_order_iff {start x : α} : x ∈ g.order start ↔ g.Leads start x := by
  rw [order, List.mem_map]
  constructor
  · rintro ⟨r, hr, rfl⟩
    have hfound : ((g.routes start).find? (·.node = r.node)).isSome :=
      List.find?_isSome.mpr ⟨r, hr, decide_eq_true rfl⟩
    obtain ⟨r', hr'⟩ := Option.isSome_iff_exists.mp hfound
    have hsearch : g.search start (· = r.node) = some r' := by
      rw [search_eq_find?]
      exact hr'
    obtain ⟨hroute, hnode⟩ := search_isRoute hsearch
    rw [← of_decide_eq_true hnode]
    exact hroute.leads
  · intro hleads
    obtain ⟨r, hr⟩ := search_isSome (p := (· = x)) hleads (decide_eq_true rfl)
    have hnode := (search_isRoute hr).2
    rw [search_eq_find?] at hr
    exact ⟨r, List.mem_of_find?_eq_some hr, of_decide_eq_true hnode⟩

/-- **There is at most one part** if and only if all nodes can be reached from the first one. -/
theorem partCount_cons_le_one_iff (g : FiniteGraph α) (a : α) (nodes : List α) :
    g.partCount (a :: nodes) ≤ 1 ↔ ∀ b ∈ nodes, g.Leads a b := by
  have hfirst : g.partStep (0, Std.TreeSet.empty) a =
      (1, (g.order a).foldl (fun (seen : Std.TreeSet α) b => seen.insert b) Std.TreeSet.empty) := by
    refine if_neg fun hmem => ?_
    exact Std.TreeSet.not_mem_emptyc (Std.TreeSet.mem_iff_contains.mpr hmem)
  have hseen : ∀ b, b ∈ (g.partStep (0, Std.TreeSet.empty) a).2 ↔ g.Leads a b := by
    intro b
    rw [hfirst, mem_foldl_insert_seen, mem_order_iff]
    exact or_iff_right Std.TreeSet.not_mem_emptyc
  have hcount : (g.partStep (0, Std.TreeSet.empty) a).1 = 1 := by rw [hfirst]
  rw [partCount_eq, List.foldl_cons]
  constructor
  · intro hle b hb
    exact (hseen b).mp (seen_of_foldl_partStep (hcount.symm ▸ hle) b hb)
  · intro hleads
    rw [foldl_partStep_of_seen fun b hb => (hseen b).mpr (hleads b hb)]
    exact Nat.le_of_eq hcount

/-- Where links go both ways, there is at most one part if and only if links lead from everywhere to
everywhere. -/
theorem partCount_le_one_iff (hsymm : ∀ a b, g.Step a b → g.Step b a) {nodes : List α} :
    g.partCount nodes ≤ 1 ↔ ∀ a ∈ nodes, ∀ b ∈ nodes, g.Leads a b := by
  cases nodes with
  | nil => simp [partCount]
  | cons first nodes =>
    rw [partCount_cons_le_one_iff]
    constructor
    · intro h
      have hfrom : ∀ b ∈ first :: nodes, g.Leads first b :=
        List.forall_mem_cons.mpr ⟨Relation.ReflTransGen.refl, h⟩
      intro a ha b hb
      have : Std.Symm g.Step := ⟨hsymm⟩
      have hback : g.Leads a first := Relation.ReflTransGen.stdSymm.symm _ _ (hfrom a ha)
      exact hback.trans (hfrom b hb)
    · intro h b hb
      exact h first List.mem_cons_self b (List.mem_cons_of_mem _ hb)

end FiniteGraph

end QubitRouting
