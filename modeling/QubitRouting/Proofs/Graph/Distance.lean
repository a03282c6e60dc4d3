import QubitRouting.Proofs.Graph.Search

/-!
# The level search takes the shortest way

Ways through a graph are counted in links (`LeadsIn`). When the search arrives at level `k`, each
route of the level has `k` steps, all nodes within `k` links have been seen, and no node within
fewer links has the wanted property (`Front`). So the route that is found in the end has no more
steps than any way to a node with the property (`search_steps_le`), and `distance` counts the links
of a shortest way (`distance_eq_some_iff`).
-/

set_option autoImplicit false

namespace QubitRouting

namespace FiniteGraph

variable {α : Type} {g : FiniteGraph α} {a b : α} {n : Nat}

/-- Exactly `n` links lead from `a` to another node, one after the other. -/
inductive LeadsIn (g : FiniteGraph α) (a : α) : Nat → α → Prop where
  | refl : LeadsIn g a 0 a
  | tail {n : Nat} {b c : α} (h : LeadsIn g a n b) (hstep : g.Step b c) : LeadsIn g a (n + 1) c

theorem leadsIn_zero_iff : g.LeadsIn a 0 b ↔ a = b := by
  constructor
  · intro h
    cases h
    rfl
  · rintro rfl
    exact .refl

theorem leadsIn_succ_iff : g.LeadsIn a (n + 1) b ↔ ∃ c, g.LeadsIn a n c ∧ g.Step c b := by
  constructor
  · intro h
    cases h with
    | tail h hstep => exact ⟨_, h, hstep⟩
  · rintro ⟨c, h, hstep⟩
    exact .tail h hstep

theorem leadsIn_one_iff : g.LeadsIn a 1 b ↔ g.Step a b := by
  rw [leadsIn_succ_iff]
  simp only [leadsIn_zero_iff, exists_eq_left']

theorem LeadsIn.trans {k : Nat} {c : α} (h : g.LeadsIn a n b) (h' : g.LeadsIn b k c) :
    g.LeadsIn a (n + k) c := by
  induction h' with
  | refl => exact h
  | tail _ hstep ih => exact .tail ih hstep

theorem LeadsIn.leads (h : g.LeadsIn a n b) : g.Leads a b := by
  induction h with
  | refl => exact .refl
  | tail _ hstep ih => exact ih.tail hstep

/-- Where links go both ways, so do the ways made of them. -/
theorem LeadsIn.symm (hsymm : ∀ x y, g.Step x y → g.Step y x) (h : g.LeadsIn a n b) :
    g.LeadsIn b n a := by
  induction h with
  | refl => exact .refl
  | @tail n c d _ hstep ih =>
    have hback := (leadsIn_one_iff.mpr (hsymm c d hstep)).trans ih
    rwa [Nat.add_comm] at hback

/-- A route leads to its end in as many links as it has steps. -/
theorem IsRoute.leadsIn {start : α} {r : Route α} (h : g.IsRoute start r) :
    g.LeadsIn start r.steps r.node := by
  obtain ⟨node, back⟩ := r
  induction back generalizing node with
  | nil =>
    obtain rfl : node = start := Option.some.inj h.begins
    exact .refl
  | cons b back ih =>
    exact .tail (ih b h.tail) (List.isChain_cons_cons.mp h.chain).1

section

variable [Ord α] [Std.TransOrd α] [Std.LawfulEqOrd α] {p : α → Bool} {start : α} {k : Nat}
  {seen : Std.TreeSet α} {level : List (Route α)}

/-- What is known when the search for a node with property `p` arrives at level `k`. -/
structure Front (g : FiniteGraph α) (p : α → Bool) (start : α) (k : Nat) (seen : Std.TreeSet α)
    (level : List (Route α)) : Prop where
  settled : g.Settled p seen level
  steps : ∀ r ∈ level, r.steps = k
  /-- Whatever can be reached in `k` links has been seen. -/
  within : ∀ n x, n ≤ k → g.LeadsIn start n x → x ∈ seen
  /-- Nothing that can be reached in fewer links has the property. -/
  without : ∀ n x, n < k → g.LeadsIn start n x → ¬p x

theorem Front.first (g : FiniteGraph α) (p : α → Bool) (start : α) :
    g.Front p start 0 (Std.TreeSet.empty.insert start) [⟨start, []⟩] where
  settled x hx := Or.inl ⟨_, List.mem_singleton_self _, (mem_singleton_seen.mp hx).symm⟩
  steps r hr := by
    obtain rfl := List.mem_singleton.mp hr
    rfl
  within n x hn h := by
    obtain rfl := Nat.le_zero.mp hn
    exact mem_singleton_seen.mpr (leadsIn_zero_iff.mp h).symm
  without n x hn _ := absurd hn (Nat.not_lt_zero n)

/-- A level without the property leads on to the next one. -/
theorem Front.next (h : g.Front p start k seen level) (hp : ∀ r ∈ level, ¬p r.node) :
    g.Front p start (k + 1) (g.nextLevel seen level).1 (g.nextLevel seen level).2 where
  settled := h.settled.nextLevel hp
  steps r hr := by
    obtain ⟨r', hr', b, -, -, rfl⟩ := exists_step_of_mem_nextLevel hr
    exact congrArg (· + 1) (h.steps r' hr')
  within n x hn hx := by
    cases hx with
    | refl => exact mem_seen_nextLevel.mpr (.inl (h.within 0 start (Nat.zero_le k) .refl))
    | @tail n y _ hy hstep =>
      -- the last node before `x` was seen, and so are all of its neighbours by now
      rcases h.settled y (h.within n y (Nat.le_of_succ_le_succ hn) hy) with ⟨r, hr,
        rfl⟩ | ⟨-, hnear⟩
      · exact mem_seen_nextLevel.mpr (.inr ⟨r, hr, hstep⟩)
      · exact mem_seen_nextLevel.mpr (.inl (hnear x hstep))
  without n x hn hx := by
    rcases h.settled x (h.within n x (Nat.le_of_lt_succ hn) hx) with ⟨r, hr, rfl⟩ | ⟨hpx, -⟩
    · exact hp r hr
    · exact hpx

theorem Front.steps_le {fuel : Nat} {r : Route α} {x : α} (h : g.Front p start k seen level)
    (hr : g.searchFrom p fuel seen level = some r) (hx : g.LeadsIn start n x) (hp : p x) :
    r.steps ≤ n := by
  induction fuel generalizing k seen level with
  | zero => exact absurd hr (by simp [searchFrom])
  | succ fuel ih =>
    rw [searchFrom] at hr
    split at hr
    · exact absurd hr (by simp)
    · split at hr
      · rename_i r' hfind
        obtain rfl := Option.some.inj hr
        rw [h.steps _ (List.mem_of_find?_eq_some hfind)]
        exact Nat.le_of_not_lt fun hlt => h.without n x hlt hx hp
      · rename_i hfind
        exact ih (h.next (List.find?_eq_none.mp hfind)) hr

/-- **No way to a node with the property is shorter than the route that is found.** -/
theorem search_steps_le {r : Route α} {x : α} (hr : g.search start p = some r)
    (hx : g.LeadsIn start n x) (hp : p x) : r.steps ≤ n :=
  (Front.first g p start).steps_le hr hx hp

variable [BEq α] [LawfulBEq α]

/-- **The distance is the least number of links that lead there.** -/
theorem distance_eq_some_iff {d : Nat} :
    g.distance a b = some d ↔ g.LeadsIn a d b ∧ ∀ n, g.LeadsIn a n b → d ≤ n := by
  rw [distance, Option.map_eq_some_iff]
  constructor
  · rintro ⟨r, hr, rfl⟩
    obtain ⟨hroute, hnode⟩ := search_isRoute hr
    refine ⟨?_, fun n hn => search_steps_le hr hn (beq_self_eq_true b)⟩
    rw [← eq_of_beq hnode]
    exact hroute.leadsIn
  · rintro ⟨hd, hleast⟩
    obtain ⟨r, hr⟩ := search_isSome (p := (· == b)) hd.leads (beq_self_eq_true b)
    obtain ⟨hroute, hnode⟩ := search_isRoute hr
    have hleads := hroute.leadsIn
    rw [eq_of_beq hnode] at hleads
    exact ⟨r, hr, Nat.le_antisymm (search_steps_le hr hd (beq_self_eq_true b)) (hleast _ hleads)⟩

end

end FiniteGraph

end QubitRouting
