import QubitRouting.Proofs.Interaction.Requests
import QubitRouting.Proofs.Layout.Histories
import QubitRouting.Proofs.Placement.Total
import QubitRouting.Topology.Presets

/-!
# Why a placement fails

A placement fails for one of three reasons, and the circuit and the device decide for which: nobody
meets another one, the device has no qubits, or it has too few of them. In the last case some qubit
found no place, and the fault says from where or for whom it was looked for (`Placement.NoRoom`).
Otherwise the layout has exactly the qubits of the circuit (`Layout.Houses`).
`initialPlacement_exact` puts all of it together for the graphs that requests make.
-/

set_option autoImplicit false

namespace QubitRouting

/-- The layout has the qubits of the circuit and no others, each on a qubit of the device that it
has for itself. -/
structure Layout.Houses (m : Layout) (g : InteractionGraph) (t : Topology) : Prop where
  placed : ∀ l, m.isPlaced l ↔ l.id < g.qubits.size
  count : m.size = g.qubits.size
  onDevice : ∀ l p, m.physical l = some p → p ∈ t.qubits
  apart : ∀ l k p, m.physical l = some p → m.physical k = some p → l = k

namespace Placement

variable {options : PlacementOptions} {g : InteractionGraph} {t : Topology} {m : Layout} {f : Fault}

/-! ## Success -/

theorem size_eq_of_isPlaced (h : ∀ l, m.isPlaced l ↔ l.id < g.names.length) :
    m.size = g.names.length := by
  have hkeys : m.places.keys.toFinset = g.qubitIds.toFinset := by
    apply Finset.ext
    intro l
    rw [List.mem_toFinset, List.mem_toFinset, Std.ExtTreeMap.mem_keys, mem_qubitIds]
    exact h l
  rw [Layout.size_eq_card, hkeys, List.toFinset_card_of_nodup (nodup_qubitIds g), length_qubitIds]

theorem initialPlacement_houses (hwf : g.WellFormed) (h : initialPlacement options g t = .ok m) :
    m.Houses g t := by
  obtain ⟨hfits, hall⟩ := initialPlacement_fits hwf h
  have hplaced : ∀ l, m.isPlaced l ↔ l.id < g.names.length := by
    intro l
    constructor
    · intro hl
      obtain ⟨p, hp⟩ := Layout.isPlaced_iff.mp hl
      exact (hfits l p hp).1
    · exact hall l
  have hcount := size_eq_of_isPlaced hplaced
  rw [InteractionGraph.length_names] at hplaced hcount
  exact ⟨hplaced, hcount, fun l p hp => (hfits l p hp).2,
    fun l k p hl hk => Layout.physical_inj hl hk⟩

/-! ## Failure -/

/-- The faults of a device that is too small. -/
inductive NoRoom (g : InteractionGraph) (t : Topology) : Fault → Prop where
  | noFreeQubit {p : PhysicalQubit} (hp : p ∈ t.qubits) : NoRoom g t (.noFreeQubit p)
  | topologyFull {l : LogicalQubit} (hl : l.id < g.qubits.size) :
      NoRoom g t (.topologyFull l t.size)

/-- What a fault of a placement tells about the circuit and the device. -/
structure Explains (options : PlacementOptions) (g : InteractionGraph) (t : Topology) (f : Fault) :
    Prop where
  noInteractions : (∃ n, f = .noInteractions n) ↔
    g.interactions.size = 0 ∧ (options.allowIsolated = false ∨ g.qubits.size = 0)
  qubits : ∀ n, f = .noInteractions n → n = g.qubits.size
  emptyTopology : f = .emptyTopology ↔ 1 ≤ g.interactions.size ∧ t.size = 0
  /-- In every other case there are more qubits than places. -/
  noRoom : (∀ n, f ≠ .noInteractions n) → f ≠ .emptyTopology → t.size < g.qubits.size ∧ NoRoom g t f

/-- Who gets stuck names a place of the device or a qubit of the circuit. -/
theorem Stuck.noRoom (h : Stuck (Known g) t m f) (hfits : m.Fits g t) : NoRoom g t f := by
  cases h with
  | near _ _ hsource _ => exact .noFreeQubit (hfits _ _ hsource).2
  | slot hl _ _ =>
    rw [Known, InteractionGraph.length_names] at hl
    exact .topologyFull hl

theorem Ends.noRoom {x : Except Fault Layout} (h : Ends (Known g) t m x) (hx : x = .error f)
    (hconn : t.Connected) (hfits : m.Fits g t) : t.size < g.qubits.size ∧ NoRoom g t f := by
  obtain ⟨m', hgrows, hstuck⟩ := h.stuck hx
  have hfits' := hgrows.fits hfits
  refine ⟨?_, hstuck.noRoom hfits'⟩
  rw [← InteractionGraph.length_names]
  exact Nat.lt_of_not_le fun hroom => not_stuck hconn hroom hfits' hstuck

/-- A fault for lack of room, where neither of the other reasons holds. -/
theorem NoRoom.explains (h : NoRoom g t f) (hcrowded : t.size < g.qubits.size)
    (hmeets : ¬(g.interactions.size = 0 ∧ (options.allowIsolated = false ∨ g.qubits.size = 0)))
    (hdevice : ¬(1 ≤ g.interactions.size ∧ t.size = 0)) : Explains options g t f := by
  have hne : (∀ n, f ≠ .noInteractions n) ∧ f ≠ .emptyTopology := by
    cases h with
    | noFreeQubit => simp
    | topologyFull => simp
  exact ⟨iff_of_false (not_exists.mpr hne.1) hmeets, fun n hn => absurd hn (hne.1 n),
    iff_of_false hne.2 hdevice, fun _ _ => ⟨hcrowded, h⟩⟩

theorem connectedQubits_eq_nil_iff_size (hwf : g.WellFormed) :
    connectedQubits g = [] ↔ g.interactions.size = 0 := by
  rw [connectedQubits_eq_nil_iff hwf, ← InteractionGraph.length_pairs, List.length_eq_zero_iff]

theorem initialPlacement_explains (hwf : g.WellFormed) (hconn : t.Connected)
    (h : initialPlacement options g t = .error f) : Explains options g t f := by
  have hmeets := connectedQubits_eq_nil_iff_size hwf
  have houtcome := initialPlacement_outcome options g t
  generalize initialPlacement options g t = x at h houtcome
  cases houtcome with
  | refused hnone hcond =>
    obtain rfl := Except.error.inj h
    have hzero := hmeets.mp hnone
    refine ⟨iff_of_true ⟨_, rfl⟩ ⟨hzero, hcond⟩, fun n hn => (Fault.noInteractions.inj hn).symm,
      iff_of_false (by simp) (by omega), fun hne => absurd rfl (hne _)⟩
  | noDevice hsome hnil =>
    obtain rfl := Except.error.inj h
    have hzero := mt hmeets.mpr hsome
    refine ⟨iff_of_false (by simp) (fun hcond => hzero hcond.1), fun n hn => absurd hn (by simp),
      iff_of_true rfl ⟨Nat.one_le_iff_ne_zero.mpr hzero, ?_⟩, fun _ hne => absurd rfl hne⟩
    rw [Topology.size, hnil, List.length_nil]
  | isolated hnone hallow hqubits =>
    obtain ⟨hcrowded, hroom⟩ := ends_isolated.noRoom h hconn fits_empty
    refine hroom.explains hcrowded ?_ ?_
    · simp [hallow, hqubits]
    · simp [hmeets.mp hnone]
  | @seeded seed start hseed hstart =>
    have hmem := (heaviestUnplaced_eq_some hseed).1
    have hstart := Topology.startingPosition_mem hstart
    have hsome := mt hmeets.mpr (List.ne_nil_of_mem hmem)
    obtain ⟨hcrowded, hroom⟩ := (ends_seeded hwf hmem).noRoom h hconn (fits_start hmem hstart)
    refine hroom.explains hcrowded (fun hcond => hsome hcond.1) ?_
    rintro ⟨-, hzero⟩
    exact List.ne_nil_of_mem hstart (List.length_eq_zero_iff.mp hzero)

/-- **Placement succeeds where it can, and says why where it cannot.** This holds for all circuits
that requests can describe, all connected devices and all options. -/
theorem initialPlacement_exact (options : PlacementOptions)
    (requests : List InteractionGraph.Request) (hconn : t.Connected) :
    let g := InteractionGraph.empty.afterAll requests
    ((∃ m, initialPlacement options g t = .ok m) ↔
        1 ≤ g.qubits.size ∧ g.qubits.size ≤ t.size ∧
          (1 ≤ g.interactions.size ∨ options.allowIsolated)) ∧
      (∀ m, initialPlacement options g t = .ok m → m.Houses g t) ∧
      ∀ f, initialPlacement options g t = .error f → Explains options g t f := by
  intro g
  have hwf : g.WellFormed := InteractionGraph.wellFormed_empty.afterAll requests
  have hpairs : g.pairs ≠ [] ↔ 1 ≤ g.interactions.size := by
    rw [← InteractionGraph.length_pairs, Nat.one_le_iff_ne_zero, ne_eq, ne_eq,
      List.length_eq_zero_iff]
  refine ⟨?_, fun m h => initialPlacement_houses hwf h,
    fun f h => initialPlacement_explains hwf hconn h⟩
  rw [exists_initialPlacement_iff options hwf hconn, hpairs, InteractionGraph.length_names]

/-- Two pairs that meet and a qubit on its own fill a line of five. On a line of three the second
pair is torn apart: its first qubit takes the last place, and there is none left for its partner. -/
theorem initialPlacement_exact_lines :
    let requests : List InteractionGraph.Request :=
      [.recordNamed "a" "b", .recordNamed "c" "d", .recordNamed "b" "a", .addQubit "e"]
    let g := InteractionGraph.empty.afterAll requests
    (Topology.linear 5).Connected ∧ (Topology.linear 3).Connected ∧
      (∃ m, initialPlacement {} g (.linear 5) = .ok m ∧ m.Houses g (.linear 5)) ∧
      initialPlacement {} g (.linear 3) = .error (.noFreeQubit ⟨2⟩) ∧
      Explains {} g (.linear 3) (.noFreeQubit ⟨2⟩) := by
  intro requests g
  have hfive : (Topology.linear 5).Connected := by decide +kernel
  have hthree : (Topology.linear 3).Connected := by decide +kernel
  obtain ⟨hok, hhouses, -⟩ := initialPlacement_exact {} requests hfive
  obtain ⟨-, -, hexplains⟩ := initialPlacement_exact {} requests hthree
  obtain ⟨m, hm⟩ := hok.mpr (by decide +kernel)
  have hfault : (initialPlacement {} g (.linear 3)).map (·.size) = .error (.noFreeQubit ⟨2⟩) := by
    decide +kernel
  have herror : initialPlacement {} g (.linear 3) = .error (.noFreeQubit ⟨2⟩) := by
    cases h : initialPlacement {} g (.linear 3) with
    | error f =>
      rw [h] at hfault
      exact congrArg Except.error (Except.error.inj hfault)
    | ok m =>
      rw [h] at hfault
      exact absurd hfault (by simp [Except.map])
  exact ⟨hfive, hthree, ⟨m, hm, hhouses m hm⟩, herror, hexplains _ herror⟩

end Placement

end QubitRouting
