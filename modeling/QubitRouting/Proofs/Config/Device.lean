import Mathlib.Data.Finset.Sort
import QubitRouting.Config.Device
import QubitRouting.Proofs.Steps
import QubitRouting.Proofs.Topology.Families

/-!
# Described devices

Which descriptions of devices are accepted, and what devices they make. A description asks for
qubits (`DeviceSpec.ids`) and for links between them (`DeviceSpec.Requests`), both said here without
the lists of links that devices are made from. All descriptions that are accepted
(`DeviceSpec.Acceptable`) make devices that pass the checks for lists of links, and have exactly
what was asked for (`build_describes`). The numbers in the lists of links are also calculated with
32 bits, to see that no calculation leaves that range (`links?_eq_some`).
-/

set_option autoImplicit false

namespace QubitRouting

namespace DeviceSpec

/-! ## What descriptions ask for -/

/-- The numbers of the qubits, in order. -/
def ids : DeviceSpec → List Nat
  | heavyHex65 => List.range 65
  | linear n | ring n | star n | full n => List.range n
  | grid rows cols => List.range (rows * cols)
  | custom (some qubits) _ => qubits
  | custom none edges => (edges.flatMap fun e => [e.1, e.2]).toFinset.sort (· ≤ ·)

/-- All numbers in a description. -/
def numbers : DeviceSpec → List Nat
  | heavyHex65 => []
  | linear n | ring n | star n | full n => [n]
  | grid rows cols => [rows, cols]
  | custom qubits edges => qubits.getD [] ++ edges.flatMap fun e => [e.1, e.2]

/-- A link is asked for, in this direction. -/
def Requests : DeviceSpec → Nat → Nat → Prop
  | heavyHex65, a, b => Topology.HeavyHexLinked a b
  | linear n, a, b => b = a + 1 ∧ b < n
  | ring n, a, b => (b = a + 1 ∧ b < n) ∨ (2 < n ∧ a + 1 = n ∧ b = 0)
  | grid rows cols, a, b => ∃ r c, r < rows ∧ c < cols ∧ a = r * cols + c ∧
      (c + 1 < cols ∧ b = r * cols + (c + 1) ∨ r + 1 < rows ∧ b = (r + 1) * cols + c)
  | star n, a, b => a = 0 ∧ 0 < b ∧ b < n
  | full n, a, b => a < b ∧ b < n
  | custom _ edges, a, b => (a, b) ∈ edges

/-- The description is accepted. -/
def Acceptable : DeviceSpec → Prop
  | heavyHex65 => True
  | linear n | ring n | star n => 1 ≤ n ∧ n ≤ 4096
  | full n => 1 ≤ n ∧ n ≤ 256
  | grid rows cols => rows * cols < Nat.pow 2 32 ∧ 1 ≤ rows * cols ∧ rows * cols ≤ 4096
  | custom qubits edges =>
    (custom qubits edges).ids ≠ [] ∧ (custom qubits edges).ids.Nodup ∧
      (∀ e ∈ edges, e.1 ∈ (custom qubits edges).ids ∧ e.2 ∈ (custom qubits edges).ids ∧ e.1 ≠ e.2) ∧
      Hangs (custom qubits edges).ids edges

/-- The links that the device is made from. -/
def links : DeviceSpec → List Link
  | heavyHex65 => Topology.heavyHexLinks
  | linear n => Topology.pathLinks n
  | ring n => Topology.ringLinks n
  | grid rows cols => Topology.gridLinks rows cols
  | star n => Topology.starLinks n
  | full n => Topology.fullLinks n
  | custom _ edges => edges.map (Prod.map .mk .mk)

/-- The links are those that were asked for. -/
theorem mem_links_iff (spec : DeviceSpec) (a b : PhysicalQubit) :
    (a, b) ∈ spec.links ∨ (b, a) ∈ spec.links ↔
      spec.Requests a.id b.id ∨ spec.Requests b.id a.id := by
  cases spec with
  | heavyHex65 => exact Topology.mem_heavyHexLinks
  | linear n => exact or_congr Topology.mem_pathLinks Topology.mem_pathLinks
  | ring n => exact or_congr Topology.mem_ringLinks Topology.mem_ringLinks
  | grid rows cols => exact or_congr Topology.mem_gridLinks Topology.mem_gridLinks
  | star n => exact or_congr Topology.mem_starLinks Topology.mem_starLinks
  | full n => exact or_congr Topology.mem_fullLinks Topology.mem_fullLinks
  | custom qubits edges =>
    have hmem : ∀ x y : PhysicalQubit, (x, y) ∈ edges.map (Prod.map .mk .mk) ↔
        (x.id, y.id) ∈ edges := by
      intro x y
      rw [List.mem_map]
      constructor
      · rintro ⟨e, he, heq⟩
        obtain ⟨rfl, rfl⟩ := Prod.mk.inj heq
        exact he
      · intro he
        exact ⟨_, he, rfl⟩
    exact or_congr (hmem a b) (hmem b a)

/-! ## Which descriptions are accepted -/

theorem checkSize_eq_ok_iff {size limit : Nat} :
    checkSize size limit = .ok () ↔ 1 ≤ size ∧ size ≤ limit := by
  unfold checkSize
  split
  · simp
    omega
  · split
    · simp
      omega
    · simp
      omega

/-- The numbers that links name are found in ascending order. -/
theorem namedQubits_eq (edges : List (Nat × Nat)) :
    namedQubits edges = (edges.flatMap fun e => [e.1, e.2]).toFinset.sort (· ≤ ·) := by
  have hascending : (namedQubits edges).Pairwise (· < ·) := by
    apply Std.TreeSet.ordered_toList.imp
    intro a b hab
    exact Nat.compare_eq_lt.mp hab
  have hmem : (namedQubits edges).toFinset = (edges.flatMap fun e => [e.1, e.2]).toFinset := by
    apply Finset.ext
    intro a
    rw [List.mem_toFinset, List.mem_toFinset, namedQubits, Std.TreeSet.mem_toList,
      Std.TreeSet.mem_ofList, List.contains_iff_mem]
  rw [← hmem]
  exact ((List.toFinset_sort (· ≤ ·) hascending.nodup).mpr (hascending.imp Nat.le_of_lt)).symm

theorem ids_custom (qubits : Option (List Nat)) (edges : List (Nat × Nat)) :
    (custom qubits edges).ids = qubits.getD (namedQubits edges) := by
  cases qubits with
  | none => exact (namedQubits_eq edges).symm
  | some qubits => rfl

theorem build_custom (qubits : Option (List Nat)) (edges : List (Nat × Nat)) :
    (custom qubits edges).build =
      if (custom qubits edges).ids = [] then .error (.invalidTopology .customWithoutQubits)
      else Topology.ofEdges ((custom qubits edges).ids.map .mk) (custom qubits edges).links := by
  rw [build, ids_custom]
  simp only [List.isEmpty_iff]
  rfl

/-- A preset is accepted by its size alone. -/
theorem bind_checkSize_eq_ok_iff {size limit : Nat} {t t' : Topology} :
    (do checkSize size limit; return t) = .ok t' ↔ (1 ≤ size ∧ size ≤ limit) ∧ t = t' := by
  rw [bind_eq_ok_iff, ← checkSize_eq_ok_iff]
  constructor
  · rintro ⟨_, hsize, ht⟩
    exact ⟨hsize, Except.ok.inj ht⟩
  · rintro ⟨hsize, rfl⟩
    exact ⟨(), hsize, rfl⟩

theorem build_grid_eq_ok_iff {rows cols : Nat} {t : Topology} :
    (grid rows cols).build = .ok t ↔ (grid rows cols).Acceptable ∧ .grid rows cols = t := by
  rw [build]
  by_cases hlarge : maxGridSize ≤ rows * cols
  · rw [if_pos hlarge]
    constructor
    · intro h
      cases h
    · rintro ⟨⟨hsmall, -⟩, -⟩
      exact absurd hlarge (Nat.not_le.mpr hsmall)
  · rw [if_neg hlarge]
    refine bind_checkSize_eq_ok_iff.trans (and_congr_left fun _ => ?_)
    exact (and_iff_right (Nat.not_le.mp hlarge)).symm

/-- What passes for the qubits and links of a device, in numbers. -/
theorem exists_ofEdges_custom_iff {qubits : Option (List Nat)} {edges : List (Nat × Nat)}
    {ids : List Nat} :
    (∃ t, Topology.ofEdges (ids.map .mk) (custom qubits edges).links = .ok t) ↔
      ids.Nodup ∧ (∀ e ∈ edges, e.1 ∈ ids ∧ e.2 ∈ ids ∧ e.1 ≠ e.2) ∧ Hangs ids edges := by
  have hinj : Function.Injective PhysicalQubit.mk := fun _ _ h => PhysicalQubit.mk.inj h
  have hjoins : (∀ l ∈ (custom qubits edges).links, l.Joins (ids.map .mk)) ↔
      ∀ e ∈ edges, e.1 ∈ ids ∧ e.2 ∈ ids ∧ e.1 ≠ e.2 := by
    rw [links, List.forall_mem_map]
    simp only [Link.Joins, Prod.map_fst, Prod.map_snd, List.mem_map_of_injective hinj, hinj.ne_iff]
  have hhangs : Hangs (ids.map PhysicalQubit.mk) (custom qubits edges).links ↔ Hangs ids edges :=
    hangs_map_iff (g := PhysicalQubit.id) fun _ => rfl
  simp only [Topology.ofEdges_eq_ok_iff]
  constructor
  · rintro ⟨_, hnodup, hall, hh, -⟩
    exact ⟨(List.nodup_map_iff hinj).mp hnodup, hjoins.mp hall, hhangs.mp hh⟩
  · rintro ⟨hnodup, hall, hh⟩
    exact ⟨_, (List.nodup_map_iff hinj).mpr hnodup, hjoins.mpr hall, hhangs.mpr hh, rfl⟩

/-- **Which descriptions are accepted.** -/
theorem exists_build_iff (spec : DeviceSpec) : (∃ t, spec.build = .ok t) ↔ spec.Acceptable := by
  cases spec with
  | heavyHex65 => exact ⟨fun _ => trivial, fun _ => ⟨_, rfl⟩⟩
  | linear n | ring n | star n | full n =>
    simp only [build, bind_checkSize_eq_ok_iff, exists_and_left, exists_eq', and_true]
    rfl
  | grid rows cols => simp only [build_grid_eq_ok_iff, exists_and_left, exists_eq', and_true]
  | custom qubits edges =>
    rw [build_custom, Acceptable]
    by_cases hempty : (custom qubits edges).ids = []
    · simp [hempty]
    · simp only [hempty, if_false, exists_ofEdges_custom_iff]
      simp [hempty]

/-- Every description is made from links that pass the checks. -/
theorem ofEdges_of_build {spec : DeviceSpec} {t : Topology} (h : spec.build = .ok t) :
    Topology.ofEdges (spec.ids.map .mk) spec.links = .ok t := by
  cases spec with
  | heavyHex65 =>
    obtain rfl := Except.ok.inj h
    exact Topology.ofEdges_ofNumbered _ Topology.hangs_heavyHexLinks
  | linear n =>
    obtain ⟨-, rfl⟩ := bind_checkSize_eq_ok_iff.mp h
    exact Topology.ofEdges_ofNumbered _ (Topology.hangs_pathLinks n)
  | ring n =>
    obtain ⟨-, rfl⟩ := bind_checkSize_eq_ok_iff.mp h
    exact Topology.ofEdges_ofNumbered _ (Topology.hangs_ringLinks n)
  | grid rows cols =>
    obtain ⟨-, rfl⟩ := build_grid_eq_ok_iff.mp h
    exact Topology.ofEdges_ofNumbered _ (Topology.hangs_gridLinks rows cols)
  | star n =>
    obtain ⟨-, rfl⟩ := bind_checkSize_eq_ok_iff.mp h
    exact Topology.ofEdges_ofNumbered _ (Topology.hangs_starLinks n)
  | full n =>
    obtain ⟨-, rfl⟩ := bind_checkSize_eq_ok_iff.mp h
    exact Topology.ofEdges_ofNumbered _ (Topology.hangs_fullLinks n)
  | custom qubits edges =>
    rw [build_custom] at h
    split at h
    · cases h
    · exact h

/-! ## Calculations with 32 bits -/

/-- The sum, if 32 bits can hold it. -/
def add? (a b : Nat) : Option Nat := if a + b < Nat.pow 2 32 then some (a + b) else none

/-- The difference, if it is not negative. -/
def sub? (a b : Nat) : Option Nat := if b ≤ a then some (a - b) else none

/-- The product, if 32 bits can hold it. -/
def mul? (a b : Nat) : Option Nat := if a * b < Nat.pow 2 32 then some (a * b) else none

/-- The links of a path, calculated with 32 bits. -/
def pathLinks? (n : Nat) : Option (List Link) :=
  (List.range' 1 (n - 1)).mapM fun i => return Topology.link (← sub? i 1) i

/-- The links of a cell of a grid, calculated with 32 bits. -/
def cellLinks? (rows cols r c : Nat) : Option (List Link) := do
  let q ← add? (← mul? r cols) c
  let right ← if (← add? c 1) < cols then pure [Topology.link q (← add? q 1)] else pure []
  let below ← if (← add? r 1) < rows then pure [Topology.link q (← add? q cols)] else pure []
  return right ++ below

/-- The links from a qubit to all with larger numbers, calculated with 32 bits. -/
def laterLinks? (n i : Nat) : Option (List Link) :=
  return (List.range' (← add? i 1) (n - (i + 1))).map (Topology.link i)

/-- The links of a qubit inside a row of the lattice, calculated with 32 bits. -/
def rowLinks? (q : Nat) : Option (List Link) :=
  return [Topology.link q (← sub? q 1), Topology.link q (← add? q 1)]

/-- The links that the device is made from, calculated with 32 bits: there are none if a calculation
leaves their range. -/
def links? : DeviceSpec → Option (List Link)
  | heavyHex65 => do
    let rows ← Topology.heavyHexRows.mapM fun row => do
      let inner ← (List.range' row.1 row.2.1).mapM rowLinks?
      return inner.flatten ++ row.2.2.map fun e => Topology.link e.1 e.2
    return rows.flatten
  | linear n => pathLinks? n
  | ring n => do
    let path ← pathLinks? n
    let closing ← if 2 < n then pure [Topology.link (← sub? n 1) 0] else pure []
    return path ++ closing
  | grid rows cols => do
    let cells ← (List.range rows).mapM fun r => (List.range cols).mapM (cellLinks? rows cols r)
    return (cells.map List.flatten).flatten
  | star n => return (List.range' 1 (n - 1)).map (Topology.link 0)
  | full n => do
    let later ← (List.range n).mapM (laterLinks? n)
    return later.flatten
  | custom _ edges => return edges.map (Prod.map .mk .mk)

theorem mapM_eq_some {α β : Type} {f : α → Option β} {g : α → β} {xs : List α}
    (h : ∀ x ∈ xs, f x = some (g x)) : xs.mapM f = some (xs.map g) := by
  induction xs with
  | nil => rfl
  | cons x xs ih =>
    obtain ⟨hx, hxs⟩ := List.forall_mem_cons.mp h
    rw [List.mapM_cons, hx, ih hxs]
    rfl

theorem pathLinks?_eq (n : Nat) : pathLinks? n = some (Topology.pathLinks n) := by
  have hlink : ∀ i ∈ List.range' 1 (n - 1), (do return Topology.link (← sub? i 1) i : Option Link) =
      some (Topology.link (i - 1) i) := by
    intro i hi
    have hpos := (List.mem_range'_1.mp hi).1
    rw [sub?, if_pos hpos]
    rfl
  rw [pathLinks?, mapM_eq_some hlink, Topology.pathLinks, List.range'_eq_map_range, List.map_map]
  congr 2
  funext i
  simp [Nat.add_comm]

theorem cellLinks?_eq {rows cols r c : Nat} (hr : r < rows) (hc : c < cols)
    (hsize : rows * cols < Nat.pow 2 32) :
    cellLinks? rows cols r c = some (Topology.cellLinks rows cols r c) := by
  have hrow : r * cols + cols ≤ rows * cols := by
    rw [← Nat.succ_mul]
    exact Nat.mul_le_mul_right cols hr
  have hrows : rows ≤ rows * cols := Nat.le_mul_of_pos_right rows (by omega)
  have hmul : mul? r cols = some (r * cols) := if_pos (by omega)
  have hq : add? (r * cols) c = some (r * cols + c) := if_pos (by omega)
  have hright : add? c 1 = some (c + 1) := if_pos (by omega)
  have hbelow : add? r 1 = some (r + 1) := if_pos (by omega)
  have hnext : add? (r * cols + c) 1 = some (r * cols + c + 1) := if_pos (by omega)
  have hdown : r + 1 < rows → add? (r * cols + c) cols = some (r * cols + c + cols) := by
    intro hlast
    have hlater : r * cols + cols + cols ≤ rows * cols := by
      rw [← Nat.succ_mul, ← Nat.succ_mul]
      exact Nat.mul_le_mul_right cols hlast
    exact if_pos (by omega)
  unfold cellLinks? Topology.cellLinks
  simp only [hmul, hq, hright, hbelow, hnext, Option.bind_eq_bind, Option.bind_some]
  by_cases hlast : r + 1 < rows
  · by_cases hend : c + 1 < cols
    · simp [hlast, hend, hdown hlast]
    · simp [hlast, hend, hdown hlast]
  · by_cases hend : c + 1 < cols
    · simp [hlast, hend]
    · simp [hlast, hend]

theorem laterLinks?_eq {n i : Nat} (hi : i < n) (hn : n ≤ 4096) :
    laterLinks? n i =
      some ((List.range (n - (i + 1))).map fun d => Topology.link i (i + 1 + d)) := by
  have hnext : add? i 1 = some (i + 1) :=
    if_pos (Nat.lt_of_le_of_lt (Nat.le_trans hi hn) (by decide))
  rw [laterLinks?, hnext]
  simp [List.range'_eq_map_range, Function.comp_def]

/-- **No calculation leaves the range of 32 bits.** -/
theorem links?_eq_some {spec : DeviceSpec} (h : spec.Acceptable) :
    spec.links? = some spec.links := by
  cases spec with
  | heavyHex65 => decide +kernel
  | linear n => exact pathLinks?_eq n
  | ring n =>
    have hlast : sub? n 1 = some (n - 1) := if_pos h.1
    rw [links?, pathLinks?_eq, links, Topology.ringLinks]
    by_cases hn : 2 < n
    · simp [hn, hlast]
    · simp [hn]
  | grid rows cols =>
    have hrow : ∀ r ∈ List.range rows, (List.range cols).mapM (cellLinks? rows cols r) =
        some ((List.range cols).map (Topology.cellLinks rows cols r)) := by
      intro r hr
      exact mapM_eq_some fun c hc => cellLinks?_eq (List.mem_range.mp hr) (List.mem_range.mp hc) h.1
    rw [links?, mapM_eq_some hrow, links, Topology.gridLinks]
    simp [List.flatMap_def, Function.comp_def]
  | star n =>
    rw [links?, links, Topology.starLinks, List.range'_eq_map_range, List.map_map]
    simp [Function.comp_def, Nat.add_comm]
  | full n =>
    have hlater : ∀ i ∈ List.range n, laterLinks? n i =
        some ((List.range (n - (i + 1))).map fun d => Topology.link i (i + 1 + d)) := by
      intro i hi
      exact laterLinks?_eq (List.mem_range.mp hi) (Nat.le_trans h.2 (by decide))
    rw [links?, mapM_eq_some hlater]
    rfl
  | custom qubits edges => rfl

/-! ## What is made -/

/-- The qubits have numbers of 32 bits if all numbers in the description have. -/
theorem lt_of_mem_ids {spec : DeviceSpec} (h : spec.Acceptable)
    (hnumbers : ∀ n ∈ spec.numbers, n < UInt32.size) {n : Nat} (hn : n ∈ spec.ids) :
    n < UInt32.size := by
  have hsmall {size : Nat} (hsize : size ≤ 4096) (hn : n ∈ List.range size) : n < UInt32.size :=
    Nat.lt_of_lt_of_le (List.mem_range.mp hn) (Nat.le_trans hsize (by decide))
  cases spec with
  | heavyHex65 => exact hsmall (by decide) hn
  | linear size | ring size | star size => exact hsmall h.2 hn
  | full size => exact hsmall (Nat.le_trans h.2 (by decide)) hn
  | grid rows cols => exact hsmall h.2.2 hn
  | custom qubits edges =>
    cases qubits with
    | some qubits => exact hnumbers n (List.mem_append_left _ hn)
    | none =>
      rw [ids, Finset.mem_sort, List.mem_toFinset] at hn
      exact hnumbers n (List.mem_append_right _ hn)

/-- A device has numbers of 32 bits if its description has no others. -/
theorem inRange_of_build {spec : DeviceSpec} {t : Topology}
    (hnumbers : ∀ n ∈ spec.numbers, n < UInt32.size) (h : spec.build = .ok t) : t.InRange := by
  intro q hq
  rw [(Topology.realizes_of_ofEdges (ofEdges_of_build h)).qubits] at hq
  obtain ⟨n, hn, rfl⟩ := List.mem_map.mp hq
  exact lt_of_mem_ids ((exists_build_iff spec).mp ⟨t, h⟩) hnumbers hn

/-- The device is what the description asks for. -/
structure Describes (spec : DeviceSpec) (t : Topology) : Prop where
  qubits : t.qubits = spec.ids.map .mk
  /-- Qubits are linked exactly if this was asked for, in either direction. -/
  adjacent : ∀ a b : PhysicalQubit, t.adjacent a b ↔
    spec.Requests a.id b.id ∨ spec.Requests b.id a.id
  symmetric : ∀ a b, t.adjacent a b = t.adjacent b a
  /-- Every linked pair is listed in one of its two directions, once. -/
  once : ∀ a b, t.links.count (a, b) + t.links.count (b, a) = if t.adjacent a b then 1 else 0
  nodup : ∀ q, (t.neighbors q).Nodup
  loopless : ∀ q, ¬t.adjacent q q
  connected : t.Connected
  /-- The checks for lists of links would let it pass. -/
  checked : Topology.ofEdges (spec.ids.map .mk) spec.links = .ok t
  /-- Calculations with 32 bits find the same links. -/
  calculated : spec.links? = some spec.links

/-- **Devices are made as described**: a description is accepted exactly if it is acceptable, and
then the device has the qubits and links that were asked for, each pair once, is connected, and
would pass the checks for lists of links; and all its numbers can be calculated with 32 bits. -/
theorem build_describes (spec : DeviceSpec) :
    ((∃ t, spec.build = .ok t) ↔ spec.Acceptable) ∧ ∀ t, spec.build = .ok t → spec.Describes t := by
  refine ⟨exists_build_iff spec, fun t ht => ?_⟩
  have hchecked := ofEdges_of_build ht
  have hrealizes := Topology.realizes_of_ofEdges hchecked
  exact {
    qubits := hrealizes.qubits
    adjacent := fun a b => (hrealizes.adjacent a b).trans (mem_links_iff spec a b)
    symmetric := hrealizes.symmetric
    once := hrealizes.once
    nodup := hrealizes.nodup
    loopless := hrealizes.loopless
    connected := hrealizes.connected
    checked := hchecked
    calculated := links?_eq_some ((exists_build_iff spec).mp ⟨t, ht⟩) }

end DeviceSpec

end QubitRouting
