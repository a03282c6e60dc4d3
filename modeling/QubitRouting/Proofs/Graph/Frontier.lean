import Mathlib.Data.Finset.Card
import QubitRouting.Graph.Frontier
import QubitRouting.Proofs.Graph.Queue

/-!
# The walk follows the breadth-first order

The walk of `Graph/Frontier.lean` lets a node stand in line more than once, and looks around again
from a node that has its turn again; the queue search (`Proofs/Graph/Queue.lean`) lets each node in
once. All the same, the nodes that the walk visits, each where it first comes, are those that the
queue takes up. Two lines are compared throughout: the queue holds what is *fresh* in the line of
the walk, each node where it first stands and only if it has not been visited (`Walk.Shadows`). A
visit to a new node is a step of the queue, since what joins the line is the same but for nodes that
stand in it or have been visited (`Shadows.first`); a further visit to an old node lets nothing
fresh join (`Shadows.again`).

So what has been visited is the beginning of the order (`fresh_visits_prefix`). And it is all of it
after enough visits (`exists_fresh_visits_eq`): however many copies there are, what waits behind
them comes one place closer with every visit.
-/

set_option autoImplicit false

namespace QubitRouting

/-! ## What is fresh in a list -/

section Fresh

variable {α : Type} [DecidableEq α] {known known' : α → Bool} {xs ys : List α} {x b : α}

/-- The elements of a list that are not known, each where it first occurs. -/
def fresh (known : α → Bool) (xs : List α) : List α := (xs.filter (!known ·)).eraseDups

@[simp] theorem fresh_nil (known : α → Bool) : fresh known [] = [] := rfl

theorem fresh_cons_of_known (h : known b) (xs : List α) :
    fresh known (b :: xs) = fresh known xs := by
  rw [fresh, List.filter_cons_of_neg (by simp [h]), fresh]

theorem fresh_cons_of_new (h : ¬known b) (xs : List α) :
    fresh known (b :: xs) = b :: fresh (fun x => known x || x == b) xs := by
  rw [fresh, List.filter_cons_of_pos (by simp [h]), List.eraseDups_cons, List.filter_filter, fresh]
  simp [Bool.and_comm]

theorem fresh_congr (h : ∀ x, known x = known' x) (xs : List α) :
    fresh known xs = fresh known' xs := by
  rw [funext h]

theorem fresh_append (known : α → Bool) (xs ys : List α) :
    fresh known (xs ++ ys) = fresh known xs ++ fresh (fun x => known x || xs.contains x) ys := by
  induction xs generalizing known with
  | nil => simp
  | cons x xs ih =>
    rw [List.cons_append]
    by_cases hx : known x
    · rw [fresh_cons_of_known hx, fresh_cons_of_known hx, ih]
      congr 1
      apply fresh_congr
      intro y
      by_cases hy : y = x
      · simp [hx, hy]
      · simp [hy]
    · rw [fresh_cons_of_new hx, fresh_cons_of_new hx, ih, List.cons_append]
      congr 2
      apply fresh_congr
      intro y
      simp [Bool.or_assoc, beq_eq_decide]

theorem fresh_eq_nil (h : ∀ x ∈ xs, known x) : fresh known xs = [] := by
  rw [fresh, List.filter_eq_nil_iff.mpr (by simpa using h)]
  rfl

/-- Leaving out what is known leaves what is fresh. -/
theorem fresh_filter {p : α → Bool} (h : ∀ x, ¬p x → known x) :
    fresh known (xs.filter p) = fresh known xs := by
  rw [fresh, List.filter_filter, fresh]
  congr 1
  apply List.filter_congr
  intro x _
  have hx := h x
  cases hp : p x <;> simp_all

theorem fresh_eq_self (hnodup : xs.Nodup) (hnew : ∀ x ∈ xs, ¬known x) : fresh known xs = xs := by
  induction xs generalizing known with
  | nil => rfl
  | cons x xs ih =>
    obtain ⟨hx, hxs⟩ := List.nodup_cons.mp hnodup
    rw [fresh_cons_of_new (hnew x List.mem_cons_self), ih hxs]
    intro y hy
    have hne : y ≠ x := fun heq => hx (heq ▸ hy)
    simp [hnew y (List.mem_cons_of_mem x hy), hne]

theorem length_fresh_le (known : α → Bool) (xs : List α) : (fresh known xs).length ≤ xs.length := by
  induction xs generalizing known with
  | nil => exact Nat.le_refl _
  | cons x xs ih =>
    by_cases hx : known x
    · rw [fresh_cons_of_known hx]
      exact Nat.le_succ_of_le (ih known)
    · rw [fresh_cons_of_new hx]
      exact Nat.succ_le_succ (ih _)

theorem fresh_prefix (h : xs <+: ys) (known : α → Bool) : fresh known xs <+: fresh known ys := by
  obtain ⟨zs, rfl⟩ := h
  rw [fresh_append]
  exact List.prefix_append _ _

end Fresh

/-! ## The queue -/

/-- A search with a queue: those in `queue` wait, what has been `seen` is not let in again, and
`order` is what is taken up from now on. -/
inductive Sweeps {α : Type} [DecidableEq α] (neighbors : α → List α) :
    (α → Bool) → List α → List α → Prop where
  | done {seen : α → Bool} : Sweeps neighbors seen [] []
  | next {seen : α → Bool} {a : α} {rest order : List α}
      (h : Sweeps neighbors (fun x => seen x || (neighbors a).contains x)
        (rest ++ fresh seen (neighbors a)) order) :
      Sweeps neighbors seen (a :: rest) (a :: order)

namespace FiniteGraph

variable {α : Type} [Ord α] [Std.TransOrd α] [Std.LawfulEqOrd α] [DecidableEq α] {g : FiniteGraph α}

omit [Std.TransOrd α] in
theorem compare_beq_eq (b x : α) : (compare b x == .eq) = (x == b) := by
  rw [Bool.eq_iff_iff, beq_iff_eq, beq_iff_eq, Std.LawfulEqCmp.compare_eq_iff_eq, eq_comm]

omit [Std.TransOrd α] [Std.LawfulEqOrd α] [DecidableEq α] in
theorem Trail.note_of_unwanted (a : α) (s : Trail α) (b : α) :
    s.note (fun _ => false) a b =
      .ok (if s.parents.contains b then s else ⟨s.waiting ++ [b], s.parents.insert b a⟩) := by
  rw [Trail.note]
  split
  · rfl
  · rfl

/-- What is fresh among the neighbours of a node joins the queue. -/
theorem Trail.notes_of_unwanted (a : α) (bs : List α) (s : Trail α) :
    ∃ s', bs.foldlM (Trail.note (fun _ => false) a) s = .ok s' ∧
      s'.waiting = s.waiting ++ fresh s.parents.contains bs ∧
      ∀ x, s'.parents.contains x = (s.parents.contains x || bs.contains x) := by
  induction bs generalizing s with
  | nil => exact ⟨s, rfl, by simp, by simp⟩
  | cons b bs ih =>
    rw [List.foldlM_cons, note_of_unwanted]
    by_cases hb : s.parents.contains b
    · obtain ⟨s', hs', hwaiting, hknown⟩ := ih s
      refine ⟨s', by rw [if_pos hb]; exact hs', by rw [hwaiting, fresh_cons_of_known hb], ?_⟩
      intro x
      rw [hknown, List.contains_cons]
      by_cases hx : x = b
      · simp [hx, hb]
      · simp [beq_false_of_ne hx]
    · obtain ⟨s', hs', hwaiting, hknown⟩ := ih ⟨s.waiting ++ [b], s.parents.insert b a⟩
      have hinsert : ∀ x, (s.parents.insert b a).contains x = (s.parents.contains x || x == b) := by
        intro x
        rw [Std.TreeMap.contains_insert, compare_beq_eq, Bool.or_comm]
      refine ⟨s', by rw [if_neg hb]; exact hs', ?_, ?_⟩
      · rw [hwaiting, fresh_cons_of_new hb, fresh_congr hinsert, List.append_assoc]
        rfl
      · intro x
        rw [hknown, hinsert, List.contains_cons, Bool.or_assoc]

theorem sweeps_of_sweep {fuel : Nat} {s : Trail α} {order : List α} {seen : α → Bool}
    (h : g.sweep (fun _ => false) fuel s = some (.ok order))
    (hseen : ∀ x, s.parents.contains x = seen x) :
    Sweeps g.neighbors seen s.waiting order := by
  induction fuel generalizing s order seen with
  | zero => exact absurd h (by simp [sweep])
  | succ fuel ih =>
    rw [sweep] at h
    split at h
    · rename_i hwaiting
      obtain rfl := Except.ok.inj (Option.some.inj h)
      rw [hwaiting]
      exact .done
    · rename_i a rest hwaiting
      obtain ⟨s', hs', hwaiting', hknown⟩ :=
        Trail.notes_of_unwanted a (g.neighbors a) ⟨rest, s.parents⟩
      rw [hs'] at h
      obtain ⟨out, hout, hmap⟩ := Option.map_eq_some_iff.mp h
      cases out with
      | error parents => cases hmap
      | ok order' =>
        obtain rfl := Except.ok.inj hmap
        have hrest := ih hout fun x => by rw [hknown x, hseen x]
        rw [hwaiting', fresh_congr hseen] at hrest
        rw [hwaiting]
        exact .next hrest

/-- The order of a traversal is what the queue takes up. -/
theorem sweeps_order (g : FiniteGraph α) (start : α) :
    Sweeps g.neighbors (· == start) [start] (g.order start) := by
  have horder := orderByQueue_eq g start
  rw [orderByQueue] at horder
  split at horder
  · rename_i order hsweep
    obtain rfl := Option.some.inj horder
    apply sweeps_of_sweep (s := Trail.first start) hsweep
    intro x
    rw [Trail.first, Std.TreeMap.contains_insert, compare_beq_eq]
    exact Bool.or_false _
  · cases horder

end FiniteGraph

/-! ## The walk -/

namespace Walk

variable {α : Type} [Ord α]

/-- The nodes that a walk visits, turn by turn. -/
def visits (neighbors : α → List α) : Nat → Walk α → α → List α
  | 0, _, _ => []
  | budget + 1, w, a =>
    a :: match (w.visit neighbors a).waiting.pop? with
      | none => []
      | some (next, waiting) => visits neighbors budget { w.visit neighbors a with waiting } next

variable {neighbors : α → List α} {budget : Nat} {w : Walk α} {a x : α}

theorem visits_succ_of_none (h : (w.visit neighbors a).waiting.pop? = none) :
    visits neighbors (budget + 1) w a = [a] := by
  rw [visits, h]

theorem visits_succ_of_some {next : α} {waiting : Line α}
    (h : (w.visit neighbors a).waiting.pop? = some (next, waiting)) :
    visits neighbors (budget + 1) w a =
      a :: visits neighbors budget { w.visit neighbors a with waiting } next := by
  rw [visits, h]

theorem length_visits_le : (visits neighbors budget w a).length ≤ budget := by
  induction budget generalizing w a with
  | zero => exact Nat.le_refl _
  | succ budget ih =>
    cases hpop : (w.visit neighbors a).waiting.pop? with
    | none =>
      rw [visits_succ_of_none hpop]
      exact Nat.le_add_left 1 budget
    | some p =>
      rw [visits_succ_of_some hpop]
      exact Nat.succ_le_succ ih

/-- A larger budget prolongs the walk. -/
theorem visits_prefix_succ : visits neighbors budget w a <+: visits neighbors (budget + 1) w a := by
  induction budget generalizing w a with
  | zero => exact List.nil_prefix
  | succ budget ih =>
    cases hpop : (w.visit neighbors a).waiting.pop? with
    | none =>
      rw [visits_succ_of_none hpop, visits_succ_of_none hpop]
    | some p =>
      rw [visits_succ_of_some hpop, visits_succ_of_some hpop, List.prefix_cons_inj]
      exact ih

theorem visits_prefix_of_le {budget' : Nat} (h : budget ≤ budget') :
    visits neighbors budget w a <+: visits neighbors budget' w a := by
  induction h with
  | refl => exact List.prefix_refl _
  | step _ ih => exact ih.trans visits_prefix_succ

/-! ### One visit -/

/-- The loop of a visit over some of the neighbours. -/
def look (visited : Std.TreeSet α) (w : Walk α) (b : α) : Walk α :=
  { w with
    noticed := if w.noticed.contains b then w.noticed else w.noticed.insert b
    waiting := if visited.contains b then w.waiting else w.waiting.push b }

theorem visited_foldl_look (visited : Std.TreeSet α) (w : Walk α) (bs : List α) :
    (bs.foldl (look visited) w).visited = w.visited := by
  induction bs generalizing w with
  | nil => rfl
  | cons b bs ih => exact ih (look visited w b)

theorem toList_waiting_foldl_look (visited : Std.TreeSet α) (w : Walk α) (bs : List α) :
    (bs.foldl (look visited) w).waiting.toList =
      w.waiting.toList ++ bs.filter (!visited.contains ·) := by
  induction bs generalizing w with
  | nil => simp
  | cons b bs ih =>
    rw [List.foldl_cons, ih]
    by_cases hb : visited.contains b
    · rw [List.filter_cons_of_neg (by simp [hb]), look, if_pos hb]
    · rw [List.filter_cons_of_pos (by simp [hb]), look, if_neg hb, Line.toList_push,
        List.append_assoc]
      rfl

theorem visited_visit : (w.visit neighbors a).visited = w.visited.insert a :=
  visited_foldl_look _ _ _

/-- Those that join the line when `a` is visited. -/
def joining (neighbors : α → List α) (visited : Std.TreeSet α) (a : α) : List α :=
  (neighbors a).filter (!(visited.insert a).contains ·)

theorem mem_joining {visited : Std.TreeSet α} {b : α} :
    b ∈ joining neighbors visited a ↔ b ∈ neighbors a ∧ b ∉ visited.insert a := by
  rw [joining, List.mem_filter, Bool.not_eq_true', Std.TreeSet.mem_iff_contains, Bool.not_eq_true]

theorem toList_waiting_visit :
    (w.visit neighbors a).waiting.toList = w.waiting.toList ++ joining neighbors w.visited a :=
  toList_waiting_foldl_look _ _ _

/-- What comes of a visit: nobody is left in the line, or the walk goes on to the next in line. -/
inductive Onward (neighbors : α → List α) (w : Walk α) (a : α) : Prop where
  | ends (hline : w.waiting.toList ++ joining neighbors w.visited a = [])
      (hvisits : ∀ budget, visits neighbors (budget + 1) w a = [a])
  | goes (next : α) (w' : Walk α) (hvisited : w'.visited = w.visited.insert a)
      (hline : w.waiting.toList ++ joining neighbors w.visited a = next :: w'.waiting.toList)
      (hvisits : ∀ budget, visits neighbors (budget + 1) w a = a :: visits neighbors budget w' next)

theorem onward (neighbors : α → List α) (w : Walk α) (a : α) : Onward neighbors w a := by
  cases hpop : (w.visit neighbors a).waiting.pop? with
  | none =>
    refine .ends ?_ fun budget => visits_succ_of_none hpop
    rw [← toList_waiting_visit, Line.pop?_eq_none_iff.mp hpop]
  | some p =>
    refine .goes p.1 { w.visit neighbors a with waiting := p.2 } visited_visit ?_ fun budget =>
      visits_succ_of_some hpop
    rw [← toList_waiting_visit]
    exact Line.toList_of_pop?_eq_some hpop

variable [Std.TransOrd α] [Std.LawfulEqOrd α]

theorem mem_insert_iff {visited : Std.TreeSet α} : x ∈ visited.insert a ↔ x = a ∨ x ∈ visited := by
  rw [Std.TreeSet.mem_insert, Std.LawfulEqCmp.compare_eq_iff_eq, eq_comm]

theorem mem_noticed_foldl_look (visited : Std.TreeSet α) (w : Walk α) (bs : List α) :
    x ∈ (bs.foldl (look visited) w).noticed ↔ x ∈ w.noticed ∨ x ∈ bs := by
  induction bs generalizing w with
  | nil => simp
  | cons b bs ih =>
    have hlook : x ∈ (look visited w b).noticed ↔ x ∈ w.noticed ∨ x = b := by
      rw [look]
      dsimp only
      split
      · rename_i hb
        constructor
        · exact Or.inl
        · rintro (hx | rfl)
          · exact hx
          · exact Std.TreeSet.mem_iff_contains.mpr hb
      · rw [Std.TreeSet.mem_insert, Std.LawfulEqCmp.compare_eq_iff_eq, eq_comm, or_comm]
    rw [List.foldl_cons, ih, hlook, List.mem_cons, or_assoc]

theorem mem_noticed_visit : x ∈ (w.visit neighbors a).noticed ↔ x ∈ w.noticed ∨ x ∈ neighbors a :=
  mem_noticed_foldl_look _ _ _

variable [DecidableEq α]

theorem size_eq_card (s : Std.TreeSet α) : s.size = s.toList.toFinset.card := by
  have hnodup : s.toList.Nodup := by
    refine Std.TreeSet.distinct_toList.imp ?_
    intro x y hxy heq
    exact hxy (Std.LawfulEqCmp.compare_eq_iff_eq.mpr heq)
  rw [List.toFinset_card_of_nodup hnodup, Std.TreeSet.length_toList]

/-- **What a walk has noticed**: the neighbours of all that it has visited. -/
theorem reachFrom_eq_card :
    reachFrom neighbors budget w a =
      (w.noticed.toList ++ (visits neighbors budget w a).flatMap neighbors).toFinset.card := by
  induction budget generalizing w a with
  | zero =>
    rw [reachFrom, size_eq_card, visits, List.flatMap_nil, List.append_nil]
  | succ budget ih =>
    have hnoticed : ∀ rest : List α, ((w.visit neighbors a).noticed.toList ++ rest).toFinset =
        (w.noticed.toList ++ (neighbors a ++ rest)).toFinset := by
      intro rest
      ext x
      simp only [List.mem_toFinset, List.mem_append, Std.TreeSet.mem_toList, mem_noticed_visit,
        or_assoc]
    cases hpop : (w.visit neighbors a).waiting.pop? with
    | none =>
      rw [reachFrom, hpop, visits_succ_of_none hpop, List.flatMap_cons, ← hnoticed,
        List.flatMap_nil, List.append_nil]
      exact size_eq_card _
    | some p =>
      rw [reachFrom, hpop, visits_succ_of_some hpop, List.flatMap_cons, ← hnoticed]
      exact ih

/-! ### The line and the queue -/

variable {visited : Std.TreeSet α} {line queue order : List α} {seen : α → Bool}

theorem contains_insert_eq (visited : Std.TreeSet α) (a x : α) :
    (visited.insert a).contains x = (visited.contains x || x == a) := by
  rw [Std.TreeSet.contains_insert, FiniteGraph.compare_beq_eq, Bool.or_comm]

theorem contains_insert_of_mem (ha : a ∈ visited) (x : α) :
    (visited.insert a).contains x = visited.contains x := by
  rw [contains_insert_eq]
  by_cases hx : x = a
  · rw [hx, Std.TreeSet.mem_iff_contains.mp ha, Bool.true_or]
  · rw [beq_false_of_ne hx, Bool.or_false]

theorem fresh_visited_of_mem (ha : a ∈ visited) (xs : List α) :
    fresh visited.contains (a :: xs) = fresh (visited.insert a).contains xs := by
  rw [fresh_cons_of_known (Std.TreeSet.mem_iff_contains.mp ha),
    fresh_congr (contains_insert_of_mem ha)]

theorem fresh_visited_of_notMem (ha : a ∉ visited) (xs : List α) :
    fresh visited.contains (a :: xs) = a :: fresh (visited.insert a).contains xs := by
  rw [fresh_cons_of_new fun h => ha (Std.TreeSet.mem_iff_contains.mpr h),
    fresh_congr (contains_insert_eq visited a)]

/-- The line of a walk and a queue: the queue holds what is fresh in the line, and has seen all that
has been visited or is in the line, in which all neighbours of visited nodes are. -/
structure Shadows (neighbors : α → List α) (visited : Std.TreeSet α) (line : List α)
    (seen : α → Bool) (queue : List α) : Prop where
  waiting : queue = fresh visited.contains line
  known : ∀ x, seen x ↔ x ∈ visited ∨ x ∈ line
  closed : ∀ v ∈ visited, ∀ x ∈ neighbors v, seen x

/-- A further visit changes nothing for the queue. -/
theorem Shadows.again (h : Shadows neighbors visited (a :: line) seen queue) (ha : a ∈ visited) :
    Shadows neighbors (visited.insert a) (line ++ joining neighbors visited a) seen queue := by
  have hmem : ∀ x, x ∈ visited.insert a ↔ x ∈ visited := by
    intro x
    rw [mem_insert_iff]
    exact or_iff_right_of_imp fun hx => hx ▸ ha
  have hseen : ∀ x, seen x ↔ x ∈ visited ∨ x ∈ line := by
    intro x
    rw [h.known, List.mem_cons]
    constructor
    · rintro (hx | rfl | hx)
      · exact Or.inl hx
      · exact Or.inl ha
      · exact Or.inr hx
    · rintro (hx | hx)
      · exact Or.inl hx
      · exact Or.inr (Or.inr hx)
  have hjoining : ∀ x ∈ joining neighbors visited a, x ∈ line := by
    intro x hx
    obtain ⟨hnear, hnew⟩ := mem_joining.mp hx
    have hold := (hseen x).mp (h.closed a ha x hnear)
    rw [hmem] at hnew
    exact hold.resolve_left hnew
  refine ⟨?_, ?_, ?_⟩
  · have hnone : fresh (fun x => (visited.insert a).contains x || line.contains x)
        (joining neighbors visited a) = [] := fresh_eq_nil fun x hx => by simp [hjoining x hx]
    rw [fresh_append, hnone, List.append_nil, h.waiting, fresh_visited_of_mem ha]
  · intro x
    rw [hseen, hmem, List.mem_append]
    exact or_congr_right (or_iff_left_of_imp (hjoining x)).symm
  · intro v hv
    exact h.closed v ((hmem v).mp hv)

/-- **A first visit is a step of the queue.** -/
theorem Shadows.first (h : Shadows neighbors visited (a :: line) seen queue) (ha : a ∉ visited) :
    ∃ rest, queue = a :: rest ∧
      Shadows neighbors (visited.insert a) (line ++ joining neighbors visited a)
        (fun x => seen x || (neighbors a).contains x) (rest ++ fresh seen (neighbors a)) := by
  have hseen : ∀ x, seen x ↔ x ∈ visited.insert a ∨ x ∈ line := by
    intro x
    rw [h.known, List.mem_cons, mem_insert_iff, or_left_comm, or_assoc]
  have hknown : ∀ x, ((visited.insert a).contains x || line.contains x) = seen x := by
    intro x
    rw [Bool.eq_iff_iff, hseen, Bool.or_eq_true, ← Std.TreeSet.mem_iff_contains,
      List.contains_iff_mem]
  refine ⟨fresh (visited.insert a).contains line, by rw [h.waiting, fresh_visited_of_notMem ha],
    ?_, ?_, ?_⟩
  · rw [fresh_append, joining, fresh_filter, fresh_congr hknown]
    intro x hx
    rw [Bool.not_eq_true', Bool.not_eq_false] at hx
    rw [hx, Bool.true_or]
  · intro x
    rw [Bool.or_eq_true, hseen, List.contains_iff_mem, List.mem_append, mem_joining]
    constructor
    · rintro ((hx | hx) | hx)
      · exact Or.inl hx
      · exact Or.inr (Or.inl hx)
      · by_cases hold : x ∈ visited.insert a
        · exact Or.inl hold
        · exact Or.inr (Or.inr ⟨hx, hold⟩)
    · rintro (hx | hx | ⟨hx, -⟩)
      · exact Or.inl (Or.inl hx)
      · exact Or.inl (Or.inr hx)
      · exact Or.inr hx
  · intro v hv x hx
    rw [Bool.or_eq_true, List.contains_iff_mem]
    rcases mem_insert_iff.mp hv with rfl | hv
    · exact Or.inr hx
    · exact Or.inl (h.closed v hv x hx)

/-! ### The whole walk -/

/-- **The walk follows the order**: what it visits, each node where it first comes, is the beginning
of what the queue takes up. -/
theorem fresh_visits_prefix (hsweeps : Sweeps neighbors seen queue order)
    (h : Shadows neighbors w.visited (a :: w.waiting.toList) seen queue) (budget : Nat) :
    fresh w.visited.contains (visits neighbors budget w a) <+: order := by
  induction budget generalizing w a seen queue order with
  | zero => exact List.nil_prefix
  | succ budget ih =>
    by_cases ha : a ∈ w.visited
    · have hagain := h.again ha
      cases onward neighbors w a with
      | ends hline hvisits =>
        rw [hvisits, fresh_visited_of_mem ha]
        exact List.nil_prefix
      | goes next w' hvisited hline hvisits =>
        rw [hline, ← hvisited] at hagain
        rw [hvisits, fresh_visited_of_mem ha, ← hvisited]
        exact ih hsweeps hagain
    · obtain ⟨rest, rfl, hfirst⟩ := h.first ha
      cases hsweeps with
      | next hsweeps =>
        cases onward neighbors w a with
        | ends hline hvisits =>
          rw [hvisits, fresh_visited_of_notMem ha, List.prefix_cons_inj]
          exact List.nil_prefix
        | goes next w' hvisited hline hvisits =>
          rw [hline, ← hvisited] at hfirst
          rw [hvisits, fresh_visited_of_notMem ha, List.prefix_cons_inj, ← hvisited]
          exact ih hsweeps hfirst

omit [Std.TransOrd α] [Std.LawfulEqOrd α] in
theorem Shadows.mem_line {b : α} (h : Shadows neighbors visited line seen (b :: queue)) :
    b ∈ line ∧ b ∉ visited := by
  have hmem : b ∈ fresh visited.contains line := by
    rw [← h.waiting]
    exact List.mem_cons_self
  rw [fresh, List.mem_eraseDups, List.mem_filter, Bool.not_eq_true'] at hmem
  exact ⟨hmem.1, fun hb => by simp [Std.TreeSet.mem_iff_contains.mp hb] at hmem⟩

omit [Std.TransOrd α] [Std.LawfulEqOrd α] in
/-- When nobody is left in the line, nobody is left in the queue. -/
theorem Shadows.order_eq_nil (h : Shadows neighbors visited [] seen queue)
    (hsweeps : Sweeps neighbors seen queue order) : order = [] := by
  rw [h.waiting, fresh_nil] at hsweeps
  cases hsweeps
  rfl

/-- **In the end the walk has visited all of the order.** The induction is on the search with the
queue, and inside it on how far back in the line its next node stands. -/
theorem exists_fresh_visits_eq (hsweeps : Sweeps neighbors seen queue order)
    (h : Shadows neighbors w.visited (a :: w.waiting.toList) seen queue) :
    ∃ budget, fresh w.visited.contains (visits neighbors budget w a) = order := by
  induction hsweeps generalizing w a with
  | done => exact ⟨0, rfl⟩
  | @next seen b rest order hsweeps ih =>
    generalize hplace : (a :: w.waiting.toList).idxOf b = place
    induction place generalizing w a with
    | zero =>
      obtain rfl : a = b := by
        by_contra hne
        rw [List.idxOf_cons_ne _ hne] at hplace
        cases hplace
      have ha := h.mem_line.2
      obtain ⟨rest', heq, hfirst⟩ := h.first ha
      obtain ⟨-, rfl⟩ := List.cons.inj heq
      cases onward neighbors w a with
      | ends hline hvisits =>
        rw [hline] at hfirst
        exact ⟨1, by rw [hvisits, fresh_visited_of_notMem ha, fresh_nil,
          hfirst.order_eq_nil hsweeps]⟩
      | goes next w' hvisited hline hvisits =>
        rw [hline, ← hvisited] at hfirst
        obtain ⟨budget, hbudget⟩ := ih hfirst
        exact ⟨budget + 1, by rw [hvisits, fresh_visited_of_notMem ha, ← hvisited, hbudget]⟩
    | succ place ihplace =>
      have hne : a ≠ b := by
        rintro rfl
        rw [List.idxOf_cons_self] at hplace
        cases hplace
      rw [List.idxOf_cons_ne _ hne, Nat.succ.injEq] at hplace
      have ha : a ∈ w.visited := by
        by_contra ha
        obtain ⟨rest', heq, -⟩ := h.first ha
        exact hne (List.cons.inj heq).1.symm
      have hb : b ∈ w.waiting.toList := List.mem_of_ne_of_mem hne.symm h.mem_line.1
      have hagain := h.again ha
      cases onward neighbors w a with
      | ends hline hvisits =>
        rw [(List.append_eq_nil_iff.mp hline).1] at hb
        cases hb
      | goes next w' hvisited hline hvisits =>
        rw [hline, ← hvisited] at hagain
        rw [← List.idxOf_append_of_mem hb, hline] at hplace
        obtain ⟨budget, hbudget⟩ := ihplace hagain hplace
        exact ⟨budget + 1, by rw [hvisits, fresh_visited_of_mem ha, ← hvisited, hbudget]⟩

omit [Std.TransOrd α] [Std.LawfulEqOrd α] in
theorem shadows_start (neighbors : α → List α) (a : α) :
    Shadows neighbors (start : Walk α).visited [a] (· == a) [a] where
  waiting := rfl
  known x := by
    rw [beq_iff_eq, List.mem_singleton]
    exact (or_iff_right Std.TreeSet.not_mem_emptyc).symm
  closed v hv := absurd hv Std.TreeSet.not_mem_emptyc

end Walk

/-! ## Walks through a graph -/

namespace FiniteGraph

open Walk

variable {α : Type} [Ord α] [Std.TransOrd α] [Std.LawfulEqOrd α] [DecidableEq α] {g : FiniteGraph α}
  {start : α} {budget budget' : Nat}

/-- The nodes that a walk visits, each where it first comes. -/
def firstVisits (g : FiniteGraph α) (start : α) (budget : Nat) : List α :=
  (visits g.neighbors budget .start start).eraseDups

omit [Std.TransOrd α] [Std.LawfulEqOrd α] in
theorem firstVisits_eq_fresh (g : FiniteGraph α) (start : α) (budget : Nat) :
    g.firstVisits start budget =
      fresh (Walk.start : Walk α).visited.contains (visits g.neighbors budget .start start) := by
  have hall : ∀ xs : List α, xs.filter (!(Walk.start : Walk α).visited.contains ·) = xs := by
    intro xs
    exact List.filter_eq_self.mpr fun x _ => rfl
  rw [firstVisits, fresh, hall]

omit [Std.TransOrd α] [Std.LawfulEqOrd α] in
theorem length_firstVisits_le : (g.firstVisits start budget).length ≤ budget := by
  rw [firstVisits_eq_fresh]
  exact Nat.le_trans (length_fresh_le _ _) length_visits_le

omit [Std.TransOrd α] [Std.LawfulEqOrd α] in
theorem firstVisits_prefix (h : budget ≤ budget') :
    g.firstVisits start budget <+: g.firstVisits start budget' := by
  rw [firstVisits_eq_fresh, firstVisits_eq_fresh]
  exact fresh_prefix (visits_prefix_of_le h) _

theorem firstVisits_prefix_order : g.firstVisits start budget <+: g.order start := by
  rw [firstVisits_eq_fresh]
  exact fresh_visits_prefix (sweeps_order g start) (shadows_start g.neighbors start) budget

theorem exists_firstVisits_eq_order (g : FiniteGraph α) (start : α) :
    ∃ enough, ∀ budget ≥ enough, g.firstVisits start budget = g.order start := by
  obtain ⟨enough, henough⟩ :=
    exists_fresh_visits_eq (w := .start) (sweeps_order g start) (shadows_start g.neighbors start)
  rw [← firstVisits_eq_fresh] at henough
  refine ⟨enough, fun budget hbudget => ?_⟩
  have hbegins : g.firstVisits start enough <+: g.firstVisits start budget :=
    firstVisits_prefix hbudget
  rw [henough] at hbegins
  exact (hbegins.eq_of_length_le firstVisits_prefix_order.length_le).symm

/-- The reach of a node counts the neighbours of what has been visited. -/
theorem reach_eq_card (g : FiniteGraph α) (start : α) (budget : Nat) :
    Walk.reach g.neighbors budget start =
      ((g.firstVisits start budget).flatMap g.neighbors).toFinset.card := by
  have hnone : (Walk.start : Walk α).noticed.toList = [] := rfl
  rw [Walk.reach, reachFrom_eq_card, hnone, List.nil_append]
  congr 1
  ext x
  simp only [List.mem_toFinset, List.mem_flatMap, firstVisits, List.mem_eraseDups]

end FiniteGraph

end QubitRouting
