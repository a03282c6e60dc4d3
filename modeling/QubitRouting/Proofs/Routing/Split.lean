import QubitRouting.Proofs.Layout.Moves
import QubitRouting.Proofs.Topology.Paths
import QubitRouting.Routing.Split

/-!
# Two chains of swaps along a path

`splitSwaps path k` (`Routing/Split.lean`) cuts a path behind place `k` and runs a chain of swaps
along each part, from the outer end inwards. A chain carries its first place to its last one, moves
every other place of the path one step towards its start, and leaves all places off the path alone;
since a path meets no qubit twice, neither of the two chains disturbs what the other one carries. So
with the two ends gone to their meeting place, those on the way have made room by one step each.
-/

set_option autoImplicit false

namespace QubitRouting

open Swap

/-! ## One chain -/

/-- What sits at the start of a chain ends up at its end. -/
theorem carry_swapChain_head (p : PhysicalQubit) (ps : List PhysicalQubit) :
    carry (swapChain (p :: ps)) p = (p :: ps).getLast (List.cons_ne_nil p ps) := by
  induction ps generalizing p with
  | nil => rfl
  | cons q ps ih =>
    have hperm : Swap.perm (p, q) p = q := Equiv.swap_apply_left p q
    rw [swapChain, carry_cons, hperm, ih, List.getLast_cons_cons]

/-- A chain leaves the places off its path alone. -/
theorem carry_swapChain_of_notMem {x : PhysicalQubit} :
    ∀ {ps : List PhysicalQubit}, x ∉ ps → carry (swapChain ps) x = x
  | [], _ => rfl
  | [_], _ => rfl
  | p :: q :: ps, h => by
    have hperm : Swap.perm (p, q) x = x := by
      refine Equiv.swap_apply_of_ne_of_ne ?_ ?_
      · rintro rfl
        exact h List.mem_cons_self
      · rintro rfl
        exact h (List.mem_cons_of_mem _ List.mem_cons_self)
    rw [swapChain, carry_cons, hperm]
    exact carry_swapChain_of_notMem fun hx => h (List.mem_cons_of_mem _ hx)

/-- Everybody else on the path of a chain goes back by one place. -/
theorem carry_swapChain_succ {x : PhysicalQubit} :
    ∀ {ps : List PhysicalQubit} {i : Nat}, ps.Nodup → ps[i + 1]? = some x →
      ps[i]? = some (carry (swapChain ps) x)
  | [], _, _, hx => absurd hx (by simp)
  | [_], _, _, hx => absurd hx (by simp)
  | p :: q :: ps, 0, hnodup, hx => by
    obtain rfl : q = x := Option.some.inj hx
    have hperm : Swap.perm (p, q) q = p := Equiv.swap_apply_right p q
    rw [swapChain, carry_cons, hperm, carry_swapChain_of_notMem (List.nodup_cons.mp hnodup).1]
    rfl
  | p :: q :: ps, i + 1, hnodup, hx => by
    have htail := (List.nodup_cons.mp hnodup).2
    have hmem : x ∈ ps := List.mem_of_getElem? (i := i) hx
    have hperm : Swap.perm (p, q) x = x := by
      refine Equiv.swap_apply_of_ne_of_ne ?_ ?_
      · rintro rfl
        exact (List.nodup_cons.mp hnodup).1 (List.mem_cons_of_mem q hmem)
      · rintro rfl
        exact (List.nodup_cons.mp htail).1 hmem
    rw [swapChain, carry_cons, hperm]
    exact carry_swapChain_succ htail hx

theorem length_swapChain : ∀ ps : List PhysicalQubit, (swapChain ps).length = ps.length - 1
  | [] => rfl
  | [_] => rfl
  | p :: q :: ps => by
    rw [swapChain, List.length_cons, length_swapChain (q :: ps)]
    rfl

/-- The swaps of a chain are steps of its path. -/
theorem rel_of_mem_swapChain {R : PhysicalQubit → PhysicalQubit → Prop} {s : Swap} :
    ∀ {ps : List PhysicalQubit}, ps.IsChain R → s ∈ swapChain ps → R s.1 s.2
  | [], _, hs => absurd hs List.not_mem_nil
  | [_], _, hs => absurd hs List.not_mem_nil
  | p :: q :: ps, hps, hs => by
    obtain ⟨hpq, htail⟩ := List.isChain_cons_cons.mp hps
    rcases List.mem_cons.mp hs with rfl | hs
    · exact hpq
    · exact rel_of_mem_swapChain htail hs

/-! ## Both chains -/

section Path

variable {path : List PhysicalQubit} {k : Nat}

/-- The qubit from the start of the path stops at place `k`. -/
theorem carry_splitSwaps_head (hnodup : path.Nodup) (hk : k + 1 < path.length) {p : PhysicalQubit}
    (hp : path.head? = some p) : path[k]? = some (carry (splitSwaps path k) p) := by
  obtain ⟨ps, rfl⟩ : ∃ ps, path = p :: ps := List.head?_eq_some_iff.mp hp
  have hlast : ((p :: ps).take (k + 1)).getLast? = (p :: ps)[k]? := by
    rw [List.getLast?_eq_getElem?, List.length_take_of_le (by omega), Nat.add_sub_cancel,
      List.getElem?_take_of_lt (Nat.lt_succ_self k)]
  have hfirst : (p :: ps)[k]? = some (carry (swapChain ((p :: ps).take (k + 1))) p) := by
    rw [← hlast, List.take_succ_cons, carry_swapChain_head, List.getLast?_eq_some_getLast]
  -- the second chain runs on the rest of the path, where place `k` is not
  have hrest : carry (swapChain ((p :: ps).take (k + 1))) p ∉ ((p :: ps).drop (k + 1)).reverse := by
    intro hmem
    have htake : carry (swapChain ((p :: ps).take (k + 1))) p ∈ (p :: ps).take (k + 1) :=
      List.mem_of_getLast? (hlast.trans hfirst)
    exact List.disjoint_take_drop hnodup (Nat.le_refl _) htake (List.mem_reverse.mp hmem)
  rw [splitSwaps, carry_append, carry_swapChain_of_notMem hrest]
  exact hfirst

/-- The qubit from the end of the path stops next to it. -/
theorem carry_splitSwaps_last (hnodup : path.Nodup) (hk : k + 1 < path.length) {p : PhysicalQubit}
    (hp : path.getLast? = some p) : path[k + 1]? = some (carry (splitSwaps path k) p) := by
  have hdrop : (path.drop (k + 1)).getLast? = some p := by
    rw [List.getLast?_drop, if_neg (by omega)]
    exact hp
  -- the first chain runs on the other part of the path
  have hfirst : p ∉ path.take (k + 1) := fun hmem =>
    List.disjoint_take_drop hnodup (Nat.le_refl _) hmem (List.mem_of_getLast? hdrop)
  obtain ⟨ps, hps⟩ : ∃ ps, (path.drop (k + 1)).reverse = p :: ps := by
    rw [← List.head?_reverse] at hdrop
    exact List.head?_eq_some_iff.mp hdrop
  rw [splitSwaps, carry_append, carry_swapChain_of_notMem hfirst, hps, carry_swapChain_head,
    ← List.getLast?_eq_some_getLast, ← hps, List.getLast?_reverse, List.head?_drop]

/-- Those before the meeting place make room for the qubit from the start of the path. -/
theorem carry_splitSwaps_before (hnodup : path.Nodup) {i : Nat} (hi : i < k) {x : PhysicalQubit}
    (hx : path[i + 1]? = some x) : path[i]? = some (carry (splitSwaps path k) x) := by
  have htake : (path.take (k + 1))[i + 1]? = some x := by
    rw [List.getElem?_take_of_lt (by omega)]
    exact hx
  have hfirst := carry_swapChain_succ (hnodup.sublist (List.take_sublist _ _)) htake
  -- where it arrives the second chain does not come
  have hrest : carry (swapChain (path.take (k + 1))) x ∉ (path.drop (k + 1)).reverse := fun hmem =>
    List.disjoint_take_drop hnodup (Nat.le_refl _) (List.mem_of_getElem? hfirst)
      (List.mem_reverse.mp hmem)
  rw [splitSwaps, carry_append, carry_swapChain_of_notMem hrest, ← hfirst,
    List.getElem?_take_of_lt (by omega)]

/-- Those behind it make room for the qubit from the end of the path. -/
theorem carry_splitSwaps_behind (hnodup : path.Nodup) {i : Nat} (hi : k < i)
    (hlast : i + 1 < path.length) {x : PhysicalQubit} (hx : path[i]? = some x) :
    path[i + 1]? = some (carry (splitSwaps path k) x) := by
  -- counted from the end of the path, place `i` is followed by place `i + 1`
  have hrev : ∀ j, k < j → j < path.length →
      (path.drop (k + 1)).reverse[path.length - 1 - j]? = path[j]? := by
    intro j hkj hj
    rw [List.getElem?_reverse (by rw [List.length_drop]; omega), List.getElem?_drop,
      List.length_drop]
    congr 1
    omega
  have hstep : (path.drop (k + 1)).reverse[path.length - 1 - (i + 1) + 1]? = some x := by
    rw [show path.length - 1 - (i + 1) + 1 = path.length - 1 - i by omega, hrev i hi (by omega)]
    exact hx
  have hnodup' := List.nodup_reverse.mpr (hnodup.sublist (List.drop_sublist (k + 1) path))
  have hmem : x ∈ path.drop (k + 1) := List.mem_reverse.mp (List.mem_of_getElem? hstep)
  have hfirst : x ∉ path.take (k + 1) := fun htake =>
    List.disjoint_take_drop hnodup (Nat.le_refl _) htake hmem
  rw [splitSwaps, carry_append,
    carry_swapChain_of_notMem hfirst, ← carry_swapChain_succ hnodup' hstep,
    hrev (i + 1) (by omega) hlast]

/-- Places off the path are left alone. -/
theorem carry_splitSwaps_of_notMem {x : PhysicalQubit} (hx : x ∉ path) :
    carry (splitSwaps path k) x = x := by
  rw [splitSwaps, carry_append, carry_swapChain_of_notMem fun h => hx (List.mem_of_mem_take h),
    carry_swapChain_of_notMem fun h => hx (List.mem_of_mem_drop (List.mem_reverse.mp h))]

/-- Wherever the two meet, the path costs the same number of swaps. -/
theorem length_splitSwaps (hk : k + 1 < path.length) :
    (splitSwaps path k).length = path.length - 2 := by
  rw [splitSwaps, List.length_append, length_swapChain, length_swapChain,
    List.length_take_of_le (by omega), List.length_reverse, List.length_drop]
  omega

/-- If the path follows links that go both ways, so do the swaps. -/
theorem rel_of_mem_splitSwaps {R : PhysicalQubit → PhysicalQubit → Prop} {s : Swap}
    (hsymm : ∀ a b, R a b → R b a) (hpath : path.IsChain R) (hs : s ∈ splitSwaps path k) :
    R s.1 s.2 := by
  rcases List.mem_append.mp hs with hs | hs
  · exact rel_of_mem_swapChain (hpath.take (k + 1)) hs
  · refine rel_of_mem_swapChain (List.isChain_reverse.mpr ?_) hs
    exact (hpath.drop (k + 1)).imp hsymm

end Path

end QubitRouting
