import QubitRouting.Proofs.Routing.Split

/-!
# What a split shifts

The two chains of a split (`Proofs/Routing/Split.lean`) as swaps of a layout. Each swap is a step of
the path, and no place is touched by both chains. Together they shift the path: the ends have met,
everything in between has made room by one place, and the rest of the layout is as it was
(`splitSwaps_shifts`). This holds of empty places too, which are shifted like those that are taken.
-/

set_option autoImplicit false

namespace QubitRouting

/-! ## The swaps -/

/-- Two places that follow each other on the path, in either order. -/
def Consecutive (path : List PhysicalQubit) (p q : PhysicalQubit) : Prop :=
  ∃ i, path[i]? = some p ∧ path[i + 1]? = some q ∨ path[i]? = some q ∧ path[i + 1]? = some p

/-- The places that swaps touch. -/
def Swap.touched (ss : List Swap) : List PhysicalQubit := ss.flatMap fun s => [s.1, s.2]

section

variable {path : List PhysicalQubit} {p q : PhysicalQubit} {k : Nat}

theorem Consecutive.symm (h : Consecutive path p q) : Consecutive path q p := by
  obtain ⟨i, h⟩ := h
  exact ⟨i, h.symm⟩

theorem Consecutive.mem (h : Consecutive path p q) : p ∈ path ∧ q ∈ path := by
  obtain ⟨i, ⟨hp, hq⟩ | ⟨hq, hp⟩⟩ := h <;>
    exact ⟨List.mem_of_getElem? hp, List.mem_of_getElem? hq⟩

theorem isChain_consecutive (path : List PhysicalQubit) : path.IsChain (Consecutive path) := by
  rw [List.isChain_iff_getElem]
  intro i hi
  exact ⟨i, .inl ⟨List.getElem?_eq_getElem _, List.getElem?_eq_getElem hi⟩⟩

/-- A chain touches only the places of its path. -/
theorem mem_of_mem_touched_swapChain (h : p ∈ Swap.touched (swapChain path)) : p ∈ path := by
  obtain ⟨s, hs, hp⟩ := List.mem_flatMap.mp h
  have hmem := (rel_of_mem_swapChain (isChain_consecutive path) hs).mem
  simp only [List.mem_cons, List.not_mem_nil, or_false] at hp
  rcases hp with rfl | rfl
  · exact hmem.1
  · exact hmem.2

/-- The first chain takes `k` swaps, and the rest is the second one. -/
theorem take_drop_splitSwaps (hk : k + 1 < path.length) :
    (splitSwaps path k).take k = swapChain (path.take (k + 1)) ∧
      (splitSwaps path k).drop k = swapChain (path.drop (k + 1)).reverse := by
  have hlength : (swapChain (path.take (k + 1))).length = k := by
    rw [length_swapChain, List.length_take_of_le (by omega), Nat.add_sub_cancel]
  unfold splitSwaps
  exact ⟨List.take_left' hlength, List.drop_left' hlength⟩

theorem disjoint_touched (hnodup : path.Nodup) (hk : k + 1 < path.length) :
    (Swap.touched ((splitSwaps path k).take k)).Disjoint
      (Swap.touched ((splitSwaps path k).drop k)) := by
  obtain ⟨hfirst, hsecond⟩ := take_drop_splitSwaps hk
  rw [hfirst, hsecond]
  intro p hp hp'
  exact List.disjoint_take_drop hnodup (Nat.le_refl _) (mem_of_mem_touched_swapChain hp)
    (List.mem_reverse.mp (mem_of_mem_touched_swapChain hp'))

end

/-! ## The layout -/

/-- What was on `p`, a qubit or nothing, is on `q`. -/
structure Layout.Brings (m m' : Layout) (p q : PhysicalQubit) : Prop where
  logical : m'.logical q = m.logical p
  physical : ∀ l, m.physical l = some p → m'.physical l = some q

theorem Layout.brings_carry (m : Layout) (ss : List Swap) (p : PhysicalQubit) :
    m.Brings (m.swaps ss) p (Swap.carry ss p) where
  logical := m.logical_swaps_carry ss p
  physical _ hl := Layout.physical_swaps_eq_some_iff.mpr ⟨p, hl, rfl⟩

/-- What was at place `i` of the path is at place `j` of it. -/
def Layout.BringsAlong (m m' : Layout) (path : List PhysicalQubit) (i j : Nat) : Prop :=
  ∃ p q, path[i]? = some p ∧ path[j]? = some q ∧ m.Brings m' p q

/-- The layout `m'` is `m` with its path shifted: the start has gone to place `k` and the end to the
next one, those before have gone back by one place and those behind forth, and all else has
stayed. -/
structure Shifted (path : List PhysicalQubit) (k : Nat) (m m' : Layout) : Prop where
  head : m.BringsAlong m' path 0 k
  last : m.BringsAlong m' path (path.length - 1) (k + 1)
  before : ∀ i, 1 ≤ i → i ≤ k → m.BringsAlong m' path i (i - 1)
  behind : ∀ i, k + 1 ≤ i → i + 1 < path.length → m.BringsAlong m' path i (i + 1)
  elsewhere : ∀ p, p ∉ path → m.Brings m' p p

section

variable {path : List PhysicalQubit} {k : Nat} {m : Layout}

/-- Where the swaps carry a place of the path, they bring what is on it. -/
theorem bringsAlong_of_carry {ss : List Swap} {i j : Nat} (hi : i < path.length)
    (h : ∀ p, path[i]? = some p → path[j]? = some (Swap.carry ss p)) :
    m.BringsAlong (m.swaps ss) path i j :=
  ⟨path[i], _, List.getElem?_eq_getElem hi, h _ (List.getElem?_eq_getElem hi), m.brings_carry ss _⟩

theorem shifted_splitSwaps (hnodup : path.Nodup) (hk : k + 1 < path.length) (m : Layout) :
    Shifted path k m (m.swaps (splitSwaps path k)) where
  head := by
    apply bringsAlong_of_carry (by omega)
    intro p hp
    exact carry_splitSwaps_head hnodup hk (List.head?_eq_getElem?.trans hp)
  last := by
    apply bringsAlong_of_carry (by omega)
    intro p hp
    exact carry_splitSwaps_last hnodup hk (List.getLast?_eq_getElem?.trans hp)
  before := by
    intro i hone hi
    obtain ⟨i, rfl⟩ := Nat.exists_eq_add_of_le' hone
    apply bringsAlong_of_carry (by omega)
    intro p hp
    exact carry_splitSwaps_before hnodup (by omega) hp
  behind := by
    intro i hki hi
    apply bringsAlong_of_carry (by omega)
    intro p hp
    exact carry_splitSwaps_behind hnodup hki hi hp
  elsewhere := by
    intro p hp
    have hbrings := m.brings_carry (splitSwaps path k) p
    rwa [carry_splitSwaps_of_notMem hp] at hbrings

/-- **A split shifts its path exactly.** It takes two swaps less than the path has places, each of
them between places that follow each other, and the first `k` of them touch none of the places that
the others touch. In any layout, the ends of the path come to places `k` and `k + 1`, the others on
it make room by one place, and the rest stays. -/
theorem splitSwaps_shifts {path : List PhysicalQubit} {k : Nat} (hnodup : path.Nodup)
    (hk : k + 1 < path.length) (m : Layout) :
    (splitSwaps path k).length = path.length - 2 ∧
      (∀ s ∈ splitSwaps path k, Consecutive path s.1 s.2) ∧
      (Swap.touched ((splitSwaps path k).take k)).Disjoint
      (Swap.touched ((splitSwaps path k).drop k)) ∧
      Shifted path k m (m.swaps (splitSwaps path k)) := by
  refine ⟨length_splitSwaps hk, ?_, disjoint_touched hnodup hk, shifted_splitSwaps hnodup hk m⟩
  intro s hs
  exact rel_of_mem_splitSwaps (fun _ _ h => h.symm) (isChain_consecutive path) hs

/-- Five places, the fourth of them empty, that meet behind the second one; a qubit off the path
stays. -/
theorem splitSwaps_shifts_five :
    let path : List PhysicalQubit := [⟨4⟩, ⟨2⟩, ⟨7⟩, ⟨0⟩, ⟨5⟩]
    let m :=
      ((((Layout.empty.assign ⟨0⟩ ⟨4⟩).assign ⟨1⟩ ⟨2⟩).assign ⟨2⟩ ⟨7⟩).assign ⟨3⟩
      ⟨5⟩).assign ⟨4⟩ ⟨9⟩
    splitSwaps path 1 = [(⟨4⟩, ⟨2⟩), (⟨5⟩, ⟨0⟩), (⟨0⟩, ⟨7⟩)] ∧
      Shifted path 1 m (m.swaps [(⟨4⟩, ⟨2⟩), (⟨5⟩, ⟨0⟩), (⟨0⟩, ⟨7⟩)]) ∧
      m.logical ⟨0⟩ = none ∧ m.logical ⟨9⟩ = some ⟨4⟩ :=
  ⟨rfl, (splitSwaps_shifts (by decide) (by decide) _).2.2.2, by decide +kernel, by decide +kernel⟩

end

end QubitRouting
