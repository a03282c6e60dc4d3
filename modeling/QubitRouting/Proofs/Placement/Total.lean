import Mathlib.Data.List.Perm.Subperm
import QubitRouting.Proofs.Interaction.Record
import QubitRouting.Proofs.Placement.Settling

/-!
# Initial placement is total

Placement only ever puts an unplaced qubit of the circuit on a free qubit of the device. So a layout
under construction *fits* (`Layout.Fits`), and for as long as a qubit waits there is a free place
for it, provided that the circuit is not larger than the device (`exists_free`, a counting
argument). On a connected device a free place can also be reached from every other one, so nobody
gets stuck (`not_stuck`).

The main results are `initialPlacement_fits` (all qubits of the circuit are placed on the device)
and `exists_initialPlacement_iff` (when there is a placement).
-/

set_option autoImplicit false

namespace QubitRouting

/-- Only qubits of the circuit are placed, and only on qubits of the device. -/
def Layout.Fits (m : Layout) (g : InteractionGraph) (t : Topology) : Prop :=
  ∀ l p, m.physical l = some p → l.id < g.names.length ∧ p ∈ t.qubits

namespace Placement

variable {g : InteractionGraph} {t : Topology} {m m' : Layout} {l : LogicalQubit}
  {p : PhysicalQubit}

/-! ## Room -/

theorem mem_qubitIds : l ∈ g.qubitIds ↔ l.id < g.names.length := by
  rw [InteractionGraph.qubitIds, InteractionGraph.length_names, List.mem_map]
  constructor
  · intro ⟨i, hi, hl⟩
    exact hl ▸ List.mem_range.mp hi
  · intro hl
    exact ⟨l.id, List.mem_range.mpr hl, rfl⟩

theorem length_qubitIds (g : InteractionGraph) : g.qubitIds.length = g.names.length := by
  rw [InteractionGraph.qubitIds, InteractionGraph.length_names, List.length_map, List.length_range]

theorem nodup_qubitIds (g : InteractionGraph) : g.qubitIds.Nodup := by
  refine List.Nodup.map ?_ List.nodup_range
  intro i j hij
  exact LogicalQubit.mk.inj hij

/-- While a qubit of the circuit waits, some qubit of the device is free. -/
theorem exists_free (hfits : m.Fits g t) (hroom : g.names.length ≤ t.size)
    (hl : l.id < g.names.length) (hnew : ¬m.isPlaced l) : ∃ p ∈ t.qubits, ¬m.isOccupied p := by
  by_contra hfull
  have hoccupied : ∀ p ∈ t.qubits, (m.logical p).isSome := by
    intro p hp
    by_contra hnone
    refine hfull ⟨p, hp, fun hocc => hnone ?_⟩
    obtain ⟨k, hk⟩ := Layout.isOccupied_iff.mp hocc
    rw [hk]
    rfl
  -- the occupants of all places, and the one who waits, are different qubits of the circuit
  have hnodup : (l :: t.qubits.filterMap m.logical).Nodup := by
    refine List.nodup_cons.mpr ⟨?_, List.Nodup.filterMap ?_ t.nodup⟩
    · intro hmem
      obtain ⟨p, -, hp⟩ := List.mem_filterMap.mp hmem
      exact hnew (Layout.isPlaced_iff.mpr ⟨p, Layout.physical_eq_some_iff.mpr hp⟩)
    · intro p q k hp hq
      rw [Option.mem_def, ← Layout.physical_eq_some_iff] at hp hq
      exact Option.some.inj (hp.symm.trans hq)
  have hsub : l :: t.qubits.filterMap m.logical ⊆ g.qubitIds := by
    intro k hk
    rcases List.mem_cons.mp hk with rfl | hk
    · exact mem_qubitIds.mpr hl
    · obtain ⟨p, -, hp⟩ := List.mem_filterMap.mp hk
      exact mem_qubitIds.mpr (hfits k p (Layout.physical_eq_some_iff.mpr hp)).1
  have hle := (List.subperm_of_subset hnodup hsub).length_le
  rw [List.length_cons, List.filterMap_length_eq_length.mpr hoccupied, length_qubitIds] at hle
  rw [Topology.size] at hroom
  omega

/-- A layout with all qubits of the circuit needs a device that is large enough. -/
theorem length_le_of_all_placed (hfits : m.Fits g t)
    (hall : ∀ l : LogicalQubit, l.id < g.names.length → m.isPlaced l) :
    g.names.length ≤ t.size := by
  have hsome : ∀ l ∈ g.qubitIds, (m.physical l).isSome := by
    intro l hl
    obtain ⟨p, hp⟩ := Layout.isPlaced_iff.mp (hall l (mem_qubitIds.mp hl))
    rw [hp]
    rfl
  have hnodup : (g.qubitIds.filterMap m.physical).Nodup := by
    refine List.Nodup.filterMap ?_ (nodup_qubitIds g)
    intro k l p hk hl
    exact Layout.physical_inj hk hl
  have hsub : g.qubitIds.filterMap m.physical ⊆ t.qubits := by
    intro p hp
    obtain ⟨l, -, hl⟩ := List.mem_filterMap.mp hp
    exact (hfits l p hl).2
  have hle := (List.subperm_of_subset hnodup hsub).length_le
  rwa [List.filterMap_length_eq_length.mpr hsome, length_qubitIds] at hle

/-! ## The qubits of the circuit -/

/-- The qubits of the circuit. -/
abbrev Known (g : InteractionGraph) (l : LogicalQubit) : Prop := l.id < g.names.length

/-- The partners of a qubit are those that it interacts with. -/
theorem mem_pairs_of_mem_partners (hwf : g.WellFormed) {q : LogicalQubit}
    {c : LogicalQubit × Weight}
    (h : c ∈ g.partners q) : (q, c.1) ∈ g.pairs ∨ (c.1, q) ∈ g.pairs := by
  obtain ⟨e, he, hjoins, -⟩ := hwf.mem_partners_iff.mp h
  have hpair : (e.first, e.second) ∈ g.pairs := List.mem_map.mpr ⟨e, he, rfl⟩
  rcases InteractionGraph.joins_iff.mp hjoins with heq | heq
  · exact Or.inl (heq ▸ hpair)
  · exact Or.inr (heq ▸ hpair)

/-- The partners of a qubit are other qubits of the circuit. -/
theorem known_of_mem_partners (hwf : g.WellFormed) {q : LogicalQubit} {c : LogicalQubit × Weight}
    (h : c ∈ g.partners q) : c.1.id < g.names.length ∧ q ≠ c.1 := by
  rcases mem_pairs_of_mem_partners hwf h with hpair | hpair
  · obtain ⟨-, hknown, hne⟩ := hwf.joins _ hpair
    exact ⟨hknown, hne⟩
  · obtain ⟨hknown, -, hne⟩ := hwf.joins _ hpair
    exact ⟨hknown, hne.symm⟩

theorem closed_known (hwf : g.WellFormed) : Closed g (Known g) :=
  fun _ _ _ hc => (known_of_mem_partners hwf hc).1

theorem lt_of_mem_connectedQubits {q : LogicalQubit} (h : q ∈ connectedQubits g) :
    q.id < g.names.length :=
  mem_qubitIds.mp (List.mem_filter.mp h).1

theorem isConnected_iff {q : LogicalQubit} : g.isConnected q ↔ ∃ i, i ∈ g.incident q := by
  rw [InteractionGraph.isConnected, Bool.not_eq_true', List.isEmpty_eq_false_iff_exists_mem]

theorem connectedQubits_eq_nil_iff (hwf : g.WellFormed) :
    connectedQubits g = [] ↔ g.pairs = [] := by
  constructor
  · intro h
    by_contra hne
    obtain ⟨c, hc⟩ := List.exists_mem_of_ne_nil _ hne
    obtain ⟨i, hi⟩ := List.mem_iff_getElem?.mp hc
    have hmem : c.1 ∈ connectedQubits g := by
      refine List.mem_filter.mpr ⟨mem_qubitIds.mpr (hwf.joins _ hc).1, ?_⟩
      exact isConnected_iff.mpr ⟨i, hwf.mem_incident_iff.mpr ⟨c, hi, .inl rfl⟩⟩
    rw [h] at hmem
    exact List.not_mem_nil hmem
  · intro h
    refine List.filter_eq_nil_iff.mpr fun q _ hq => ?_
    obtain ⟨i, hi⟩ := isConnected_iff.mp hq
    obtain ⟨c, hc, -⟩ := hwf.mem_incident_iff.mp hi
    rw [h] at hc
    cases hc

/-! ## Steps of the circuit -/

theorem fits_empty : Layout.empty.Fits g t := by
  intro l p hp
  exact absurd hp (by simp)

theorem fits_assign (hfits : m.Fits g t) (hl : Known g l) (hp : p ∈ t.qubits)
    (hfree : ¬m.isOccupied p) :
    (m.assign l p).Fits g t := by
  intro k q hq
  rw [Layout.physical_assign_free hfree] at hq
  split at hq
  · rename_i hlk
    obtain rfl := Option.some.inj hq
    exact ⟨hlk ▸ hl, hp⟩
  · exact hfits k q hq

theorem fits_start {seed : LogicalQubit} {start : PhysicalQubit} (hseed : seed ∈ connectedQubits g)
    (hstart : start ∈ t.qubits) : (Layout.empty.assign seed start).Fits g t :=
  fits_assign fits_empty (lt_of_mem_connectedQubits hseed) hstart Layout.not_isOccupied_empty

theorem Settles.fits (h : Settles (Known g) t m m') (hfits : m.Fits g t) : m'.Fits g t := by
  cases h with
  | near hl _ hsource hp =>
    exact fits_assign hfits hl (mem_of_nearestFree (hfits _ _ hsource).2 hp)
      (not_isOccupied_of_nearestFree hp)
  | slot hl _ hp => exact fits_assign hfits hl (freeSlot?_eq_some hp).1 (freeSlot?_eq_some hp).2

theorem Grows.fits (h : Grows (Known g) t m m') (hfits : m.Fits g t) : m'.Fits g t := by
  induction h with
  | refl => exact hfits
  | tail _ hstep ih => exact hstep.fits ih

/-- **Where there is room, nobody gets stuck.** -/
theorem not_stuck (hconn : t.Connected) (hroom : g.names.length ≤ t.size) (hfits : m.Fits g t)
    {f : Fault} :
    ¬Stuck (Known g) t m f := by
  intro h
  cases h with
  | near hl hnew hsource hnone =>
    obtain ⟨q, hq⟩ :=
      exists_nearestFree hconn (hfits _ _ hsource).2 (exists_free hfits hroom hl hnew)
    rw [hnone] at hq
    exact absurd hq (by simp)
  | slot hl hnew hnone => exact freeSlot?_ne_none (exists_free hfits hroom hl hnew) hnone

theorem Ends.exists_ok {x : Except Fault Layout} (h : Ends (Known g) t m x) (hconn : t.Connected)
    (hroom : g.names.length ≤ t.size) (hfits : m.Fits g t) : ∃ m', x = .ok m' := by
  cases h with
  | ok _ => exact ⟨_, rfl⟩
  | error hgrows hstuck => exact absurd hstuck (not_stuck hconn hroom (hgrows.fits hfits))

/-! ## The whole placement -/

theorem ends_isolated : Ends (Known g) t .empty (placeRemaining t g.qubitIds .empty) :=
  ends_placeRemaining fun _ hq => mem_qubitIds.mp hq

theorem ends_seeded (hwf : g.WellFormed) {seed : LogicalQubit} (hseed : seed ∈ connectedQubits g) :
    Ends (Known g) t m (fromSeed g t seed m) :=
  ends_fromSeed (closed_known hwf) (fun _ hq => mem_qubitIds.mp hq) hseed

/-- **All qubits of the circuit are placed, on qubits of the device.** -/
theorem initialPlacement_fits {options : PlacementOptions} (hwf : g.WellFormed)
    (h : initialPlacement options g t = .ok m) :
    m.Fits g t ∧ ∀ l : LogicalQubit, l.id < g.names.length → m.isPlaced l := by
  have houtcome := initialPlacement_outcome options g t
  generalize initialPlacement options g t = x at h houtcome
  cases houtcome with
  | refused => exact absurd h (by simp)
  | noDevice => exact absurd h (by simp)
  | isolated =>
    exact ⟨(ends_isolated.grows h).fits fits_empty,
      fun l hl => isPlaced_of_placeRemaining h l (mem_qubitIds.mpr hl)⟩
  | seeded hseed hstart =>
    have hmem := (heaviestUnplaced_eq_some hseed).1
    exact ⟨((ends_seeded hwf hmem).grows h).fits
      (fits_start hmem (Topology.startingPosition_mem hstart)), fun l hl =>
      isPlaced_of_fromSeed h l (mem_qubitIds.mpr hl)⟩

/-- Only a circuit with qubits has a placement. -/
theorem length_pos_of_initialPlacement {options : PlacementOptions}
    (h : initialPlacement options g t = .ok m) : 1 ≤ g.names.length := by
  have houtcome := initialPlacement_outcome options g t
  generalize initialPlacement options g t = x at h houtcome
  cases houtcome with
  | refused => exact absurd h (by simp)
  | noDevice => exact absurd h (by simp)
  | isolated _ _ hqubits =>
    rw [InteractionGraph.length_names]
    exact Nat.one_le_iff_ne_zero.mpr hqubits
  | seeded hseed =>
    have hknown := lt_of_mem_connectedQubits (heaviestUnplaced_eq_some hseed).1
    omega

/-- **When there is a placement**: the circuit has qubits, but no more than the device, and two of
them meet unless circuits without two-qubit gates are allowed. -/
theorem exists_initialPlacement_iff (options : PlacementOptions) (hwf : g.WellFormed)
    (hconn : t.Connected) :
    (∃ m, initialPlacement options g t = .ok m) ↔
      1 ≤ g.names.length ∧ g.names.length ≤ t.size ∧ (g.pairs ≠ [] ∨ options.allowIsolated) := by
  have houtcome := initialPlacement_outcome options g t
  constructor
  · intro ⟨m, h⟩
    obtain ⟨hfits, hall⟩ := initialPlacement_fits hwf h
    refine ⟨length_pos_of_initialPlacement h, length_le_of_all_placed hfits hall, ?_⟩
    generalize initialPlacement options g t = x at h houtcome
    cases houtcome with
    | refused => exact absurd h (by simp)
    | noDevice => exact absurd h (by simp)
    | isolated _ hallow => exact Or.inr hallow
    | seeded hseed =>
      refine Or.inl fun hpairs => List.ne_nil_of_mem (heaviestUnplaced_eq_some hseed).1 ?_
      exact (connectedQubits_eq_nil_iff hwf).mpr hpairs
  · intro ⟨hpos, hroom, hsome⟩
    generalize initialPlacement options g t = x at houtcome
    cases houtcome with
    | refused hnone hcond =>
      have hpairs := (connectedQubits_eq_nil_iff hwf).mp hnone
      rw [← InteractionGraph.length_names] at hcond
      rcases hcond with hallow | hqubits
      · exact absurd (hsome.resolve_left fun hne => hne hpairs) (by simp [hallow])
      · omega
    | noDevice _ hnil =>
      rw [Topology.size, hnil, List.length_nil] at hroom
      omega
    | isolated => exact ends_isolated.exists_ok hconn hroom fits_empty
    | seeded hseed hstart =>
      have hmem := (heaviestUnplaced_eq_some hseed).1
      exact (ends_seeded hwf hmem).exists_ok hconn hroom
        (fits_start hmem (Topology.startingPosition_mem hstart))

end Placement

end QubitRouting
