import QubitRouting.Proofs.Graph.Best
import QubitRouting.Proofs.Topology.Reach
import QubitRouting.Topology.Presets

/-!
# The climb ends on top

The search for a starting position moves from qubit to qubit for as long as a neighbour reaches
further. A round looks at all neighbours of the qubit at which it begins, also after it has found a
better one, so it ends at the first neighbour that reaches furthest, or where it began; only then
does the climb stop. `Climbs` says this without a bound on the number of rounds: it relates a qubit
to the one at which a climb from it comes to an end.

Every climb does come to an end (`exists_climbs`), since the reach grows with every move and is
bounded by the number of qubits, and the bound that `Topology.climb` takes is never what stops it
(`Climbs.climb_eq`).
-/

set_option autoImplicit false

namespace QubitRouting.Topology

variable {t : Topology} {budget fuel rounds : Nat} {a b q : PhysicalQubit}

/-- A climb that ends: at a qubit none of whose neighbours reaches further, or after a move to the
first of the neighbours that reach furthest, if they do reach further. -/
inductive Climbs (t : Topology) (budget : Nat) : PhysicalQubit → Nat → PhysicalQubit → Prop where
  | stays {a : PhysicalQubit} (htop : ∀ b ∈ t.neighbors a, t.reach budget b ≤ t.reach budget a) :
      Climbs t budget a 0 a
  | moves {a b q : PhysicalQubit} {rounds : Nat}
      (hbest : IsFirstMax (t.reach budget) (t.neighbors a) b)
      (hup : t.reach budget a < t.reach budget b) (h : Climbs t budget b rounds q) :
      Climbs t budget a (rounds + 1) q

namespace Climbs

/-- **No neighbour of the end reaches further.** -/
theorem top (h : t.Climbs budget a rounds q) (hb : b ∈ t.neighbors q) :
    t.reach budget b ≤ t.reach budget q := by
  induction h with
  | stays htop => exact htop b hb
  | moves _ _ _ ih => exact ih hb

/-- The reach grows with every move. -/
theorem add_reach_le (h : t.Climbs budget a rounds q) :
    rounds + t.reach budget a ≤ t.reach budget q := by
  induction h with
  | stays _ => exact Nat.le_of_eq (Nat.zero_add _)
  | moves _ hup _ ih => omega

/-- A climb stays on the links. -/
theorem leads (h : t.Climbs budget a rounds q) : t.graph.Leads a q := by
  induction h with
  | stays _ => exact Relation.ReflTransGen.refl
  | moves hbest _ _ ih => exact Relation.ReflTransGen.head hbest.mem ih

end Climbs

/-! ## One round -/

/-- Where a round ends. -/
def round (t : Topology) (budget : Nat) (here : PhysicalQubit × Nat) : PhysicalQubit × Nat :=
  (t.neighbors here.1).foldl (fun chosen q =>
    pickBetter (fun a b => b < a) chosen (q, t.reach budget q)) here

theorem climb_succ (t : Topology) (budget fuel : Nat) (here : PhysicalQubit × Nat) :
    t.climb budget (fuel + 1) here =
      if here.2 < (t.round budget here).2 then t.climb budget fuel (t.round budget here)
      else here.1 := rfl

/-- A round ends at the first qubit that reaches furthest, of the one where it begins and its
neighbours. -/
theorem exists_round_eq (t : Topology) (budget : Nat) (a : PhysicalQubit) :
    ∃ b, t.round budget (a, t.reach budget a) = (b, t.reach budget b) ∧
      IsFirstMax (t.reach budget) (a :: t.neighbors a) b :=
  foldl_pickBetter_isFirstMax fun _ _ _ _ => decide_eq_true_iff

/-- A round that ends further up ends at the best neighbour. -/
theorem isFirstMax_neighbors (h : IsFirstMax (t.reach budget) (a :: t.neighbors a) b)
    (hup : t.reach budget a < t.reach budget b) :
    IsFirstMax (t.reach budget) (t.neighbors a) b := by
  obtain ⟨before, after, hsplit, hbefore, hafter⟩ := h
  cases before with
  | nil =>
    obtain ⟨rfl, -⟩ := List.cons.inj hsplit
    exact absurd hup (Nat.lt_irrefl _)
  | cons c before =>
    obtain ⟨-, hrest⟩ := List.cons.inj hsplit
    exact ⟨before, after, hrest, (List.forall_mem_cons.mp hbefore).2, hafter⟩

theorem round_eq_of_isFirstMax (hbest : IsFirstMax (t.reach budget) (t.neighbors a) b)
    (hup : t.reach budget a < t.reach budget b) :
    t.round budget (a, t.reach budget a) = (b, t.reach budget b) := by
  obtain ⟨c, hround, hmax⟩ := exists_round_eq t budget a
  have hle : t.reach budget b ≤ t.reach budget c := hmax.le (List.mem_cons_of_mem a hbest.mem)
  obtain rfl : c = b := (isFirstMax_neighbors hmax (Nat.lt_of_lt_of_le hup hle)).unique hbest
  exact hround

/-! ## The whole climb -/

/-- **The bound does not stop a climb.** -/
theorem Climbs.climb_eq (h : t.Climbs budget a rounds q) (hfuel : rounds ≤ fuel) :
    t.climb budget fuel (a, t.reach budget a) = q := by
  induction h generalizing fuel with
  | @stays a htop =>
    cases fuel with
    | zero => rfl
    | succ fuel =>
      obtain ⟨b, hround, hmax⟩ := exists_round_eq t budget a
      have hle : t.reach budget b ≤ t.reach budget a := by
        rcases List.mem_cons.mp hmax.mem with rfl | hb
        · exact Nat.le_refl _
        · exact htop b hb
      rw [climb_succ, hround, if_neg (Nat.not_lt.mpr hle)]
  | moves hbest hup _ ih =>
    obtain ⟨fuel, rfl⟩ := Nat.exists_eq_add_one_of_ne_zero (Nat.ne_zero_of_lt hfuel)
    rw [climb_succ, round_eq_of_isFirstMax hbest hup, if_pos hup]
    exact ih (Nat.le_of_succ_le_succ hfuel)

/-- **Every climb comes to an end.** The induction is on what is still missing to the number of
qubits, which no reach exceeds. -/
theorem exists_climbs (t : Topology) (budget : Nat) (a : PhysicalQubit) :
    ∃ rounds q, t.Climbs budget a rounds q := by
  generalize hgap : t.size - t.reach budget a = gap
  induction gap using Nat.strong_induction_on generalizing a with
  | _ gap ih =>
    obtain ⟨b, -, hmax⟩ := exists_round_eq t budget a
    by_cases hup : t.reach budget a < t.reach budget b
    · have hbound := t.reach_le_size b budget
      obtain ⟨rounds, q, hclimbs⟩ := ih (t.size - t.reach budget b) (by omega) b rfl
      exact ⟨rounds + 1, q, .moves (isFirstMax_neighbors hmax hup) hup hclimbs⟩
    · refine ⟨0, a, .stays fun c hc => ?_⟩
      exact Nat.le_trans (hmax.le (List.mem_cons_of_mem a hc)) (Nat.le_of_not_lt hup)

/-- **The starting position is a local optimum**: on a device that has qubits, the climb from the
center ends after at most as many moves as there are qubits. It ends at a qubit that can be reached
from the center, reaches at least as far, and has no neighbour that reaches further. -/
theorem startingPosition_locally_best (hne : t.qubits ≠ []) (count : Nat) :
    ∃ center q rounds, t.center = .ok center ∧ t.startingPosition count = .ok q ∧
      t.Climbs count center rounds q ∧ rounds ≤ t.size ∧
      (∀ fuel ≥ rounds, t.climb count fuel (center, t.reach count center) = q) ∧
      q ∈ t.qubits ∧ t.graph.Leads center q ∧ t.reach count center ≤ t.reach count q ∧
      ∀ b ∈ t.neighbors q, ¬t.reach count q < t.reach count b := by
  obtain ⟨center, hcenter⟩ := exists_center hne
  obtain ⟨rounds, q, hclimbs⟩ := t.exists_climbs count center
  have hreach := hclimbs.add_reach_le
  have hbound := t.reach_le_size q count
  have hstart : t.startingPosition count = .ok q := by
    rw [startingPosition, hcenter]
    exact congrArg Except.ok (hclimbs.climb_eq (by omega))
  refine ⟨center, q, rounds, hcenter, hstart, hclimbs, by omega, ?_, startingPosition_mem hstart,
    hclimbs.leads, by omega, ?_⟩
  · intro fuel hfuel
    exact hclimbs.climb_eq hfuel
  · intro b hb
    exact Nat.not_lt.mpr (hclimbs.top hb)

/-- On a line of five the center is the first qubit. With one visit it reaches one neighbour only,
and the climb moves once, to the second qubit. -/
theorem startingPosition_locally_best_line :
    (linear 5).qubits ≠ [] ∧ (linear 5).startingPosition 1 = .ok ⟨1⟩ ∧
      ∀ b ∈ (linear 5).neighbors ⟨1⟩, ¬(linear 5).reach 1 ⟨1⟩ < (linear 5).reach 1 b := by
  have hne : (linear 5).qubits ≠ [] := by decide
  obtain ⟨center, q, rounds, -, hstart, -, -, -, -, -, -, htop⟩ :=
    startingPosition_locally_best hne 1
  have hq : ((linear 5).startingPosition 1).toOption = some ⟨1⟩ := by decide +kernel
  rw [hstart] at hq
  obtain rfl : q = ⟨1⟩ := Option.some.inj hq
  exact ⟨hne, hstart, htop⟩

end QubitRouting.Topology
