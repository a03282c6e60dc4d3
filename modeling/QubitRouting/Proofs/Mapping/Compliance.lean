import QubitRouting.Proofs.Mapping.Collection
import QubitRouting.Topology.Presets

/-!
# Mapped circuits run on the device

A device accepts an instruction if it acts on qubits of the device, and a gate on two qubits only
where these are linked (`Instruction.Complies`). That all instructions of a mapped circuit comply
follows from the layout alone: it stays injective and on the device, and the router brings the two
qubits of a gate together along links.
-/

set_option autoImplicit false

namespace QubitRouting

/-- The device can execute the instruction. -/
structure Instruction.Complies (t : Topology) (i : Instruction PhysicalQubit) : Prop where
  onDevice : ∀ q ∈ i.qubits, q ∈ t.qubits
  linked : ∀ {a b}, i.pair? = some (a, b) → t.adjacent a b

theorem Instruction.complies_ofSwap {t : Topology} {s : Swap} (h : t.adjacent s.1 s.2) :
    (ofSwap s).Complies t where
  onDevice q hq := by
    obtain ⟨h₁, h₂, -⟩ := Topology.joins_of_adjacent h
    rcases List.mem_pair.mp hq with rfl | rfl
    · exact h₁
    · exact h₂
  linked {a b} hab := by
    obtain ⟨rfl, rfl⟩ := Prod.mk.inj (Option.some.inj hab)
    exact h

namespace Pass

variable {s s' : Session} {costs : CostModel} {src : List (Instruction String)} {e : Emission}

theorem mem_of_sits (hs : s.Valid) {name : String} {q : PhysicalQubit} (h : Sits s name q) :
    q ∈ s.topology.qubits := by
  obtain ⟨l, m, -, hm, hq⟩ := Session.whereIs_eq_some_iff.mp h
  exact (hs.fits m hm l q hq).2

theorem mem_of_forall₂_sits (hs : s.Valid) {names : List String} {qs : List PhysicalQubit}
    (h : List.Forall₂ (Sits s) names qs) : ∀ q ∈ qs, q ∈ s.topology.qubits := by
  induction h with
  | nil => simp
  | cons hq _ ih => exact List.forall_mem_cons.mpr ⟨mem_of_sits hs hq, ih⟩

theorem Approached.alongLinks {i : Instruction String} {swaps : List Swap}
    (h : Approached s i swaps s') : ∀ sw ∈ swaps, s.topology.adjacent sw.1 sw.2 := by
  cases h with
  | pair name params hswaps =>
    obtain ⟨la, lb, -, -, -, hroute⟩ := Session.swapsBetween_eq_ok_iff.mp hswaps
    obtain ⟨-, pa, pb, -, -, htogether⟩ := Router.brings_together hroute
    exact htogether.alongLinks
  | other => simp

/-- The qubits of a gate sit on linked places once they have been brought together. -/
theorem Approached.linked {i : Instruction String} {a b : String} {swaps : List Swap}
    {qa qb : PhysicalQubit} (h : Approached s i swaps s') (hi : i.pair? = some (a, b))
    (ha : Sits s' a qa) (hb : Sits s' b qb) : s.topology.adjacent qa qb := by
  obtain ⟨pa, hpa₀, rfl⟩ := h.sits_iff.mp ha
  obtain ⟨pb, hpb₀, rfl⟩ := h.sits_iff.mp hb
  cases h with
  | @pair name params a' b' placed _ hswaps =>
    obtain ⟨rfl, rfl⟩ := Prod.mk.inj (Option.some.inj hi)
    obtain ⟨la, lb, hla, hlb, hplaced, hroute⟩ := Session.swapsBetween_eq_ok_iff.mp hswaps
    obtain ⟨-, pa', pb', hpa, hpb, htogether⟩ := Router.brings_together hroute
    have hlayout : s.layout? = some placed.current := by rw [Session.layout?, hplaced]; rfl
    -- The route starts at the very places from which the swaps have carried both qubits.
    have ha' := Session.whereIs_eq_some_iff.mpr ⟨la, _, hla, hlayout, hpa⟩
    have hb' := Session.whereIs_eq_some_iff.mpr ⟨lb, _, hlb, hlayout, hpb⟩
    obtain rfl := Option.some.inj (hpa₀.symm.trans ha')
    obtain rfl := Option.some.inj (hpb₀.symm.trans hb')
    exact htogether.linked
  | other hnone => exact absurd (hi.symm.trans hnone) (by simp)

theorem complies_written {i : Instruction String} {j : Instruction PhysicalQubit}
    {swaps : List Swap}
    (hs : s.Valid) (happ : Approached s i swaps s') (hij : i.Related (Sits s') j) :
    ∀ k ∈ (written costs swaps j).instructions, k.Complies s.topology := by
  obtain ⟨hs', htopology⟩ := hs.change happ.change
  intro k hk
  rcases List.mem_append.mp hk with hk | hk
  · obtain ⟨sw, hsw, rfl⟩ := List.mem_map.mp hk
    exact Instruction.complies_ofSwap (happ.alongLinks sw hsw)
  · obtain rfl := List.mem_singleton.mp hk
    refine ⟨?_, fun {qa qb} hpair => ?_⟩
    · rw [← htopology]
      exact mem_of_forall₂_sits hs' hij.qubits
    · obtain ⟨a, b, hi, ha, hb⟩ := hij.pair hpair
      exact happ.linked hi ha hb

theorem Emits.complies (hs : s.Valid) (h : Emits costs s src e s') :
    ∀ j ∈ e.instructions, j.Complies s.topology := by
  induction src generalizing s e with
  | nil =>
    obtain ⟨rfl, -⟩ := emits_nil.mp h
    simp [Emission.empty]
  | cons i src ih =>
    obtain ⟨swaps, j, s₁, e', happ, hij, hrest, rfl⟩ := emits_cons.mp h
    obtain ⟨hs₁, htopology⟩ := hs.change happ.change
    rw [append_def]
    refine List.forall_mem_append.mpr ⟨complies_written hs happ hij, ?_⟩
    rw [← htopology]
    exact ih hs₁ hrest

/-! ## The device register -/

/-- The register of a device with qubits ends with the qubit of the largest number, as far as 32
bits go. -/
theorem exists_registerSize_eq {t : Topology} (h : t.qubits ≠ []) :
    ∃ top ∈ t.qubits, (∀ q ∈ t.qubits, q.id ≤ top.id) ∧
      (registerSize t).toNat = (top.id + 1) % UInt32.size := by
  have hne : t.qubits.map (·.id) ≠ [] := List.map_eq_nil_iff.not.mpr h
  obtain ⟨n, hn⟩ := Option.isSome_iff_exists.mp (List.isSome_max?_of_ne_nil hne)
  obtain ⟨hmem, hle⟩ := List.max?_eq_some_iff.mp hn
  obtain ⟨top, htop, rfl⟩ := List.mem_map.mp hmem
  refine ⟨top, htop, fun q hq => hle q.id (List.mem_map_of_mem hq), ?_⟩
  have hsize : registerSize t = .ofNat (top.id + 1) := by
    rw [registerSize, hn, UInt32.ofNat_add]
    rfl
  rw [hsize]
  exact UInt32.toNat_ofNat'

/-- Without the last number of 32 bits, all qubits are in the register. -/
theorem lt_registerSize {t : Topology} {q : PhysicalQubit}
    (hids : ∀ q ∈ t.qubits, q.id + 1 < UInt32.size) (hq : q ∈ t.qubits) :
    q.id < (registerSize t).toNat := by
  obtain ⟨top, htop, hle, hsize⟩ := exists_registerSize_eq (List.ne_nil_of_mem hq)
  rw [hsize, Nat.mod_eq_of_lt (hids top htop)]
  exact Nat.lt_succ_of_le (hle q hq)

/-- **Mapped circuits run on the device**: in the output for any source text, both qubits of every
gate on two qubits are different and linked, and all qubits that it names, in the header as in the
instructions, are qubits of the device. These are elements of the register that it declares, unless
one of them has the last number of 32 bits. -/
theorem remap_complies {source : String} {t : Topology} {settings : MapperSettings}
    {costs : CostModel} {out : Mapped} (h : remap source t settings costs = .ok out) :
    (∀ name params a b, .gate name params [a, b] ∈ out.circuit.instructions →
        a ≠ b ∧ t.adjacent a b) ∧
      (∀ q ∈ out.circuit.initial, q ∈ t.qubits) ∧
      (∀ i ∈ out.circuit.instructions, ∀ q ∈ i.qubits, q ∈ t.qubits) ∧
      ((∀ q ∈ t.qubits, q.id + 1 < UInt32.size) →
        ∀ q ∈ t.qubits, q.id < out.circuit.size.toNat) := by
  obtain ⟨p, r, s₁, m, s₂, s₃, -, hcollect, hplace, hemit⟩ := remap_eq_ok_iff.mp h
  obtain ⟨-, _, -, -, hnoted⟩ := noted_of_gives_collect hcollect
  obtain ⟨hs₂, htopology, -⟩ := placed_of_noted hnoted hplace
  obtain ⟨initial, src, e, hinitial, -, hemits, rfl⟩ := gives_emit_iff.mp hemit
  obtain ⟨-, -, hsame, -⟩ := hemits.session hs₂
  have hcomplies := hemits.complies hs₂
  rw [htopology] at hsame hcomplies
  refine ⟨fun name params a b hgate => ?_, fun q hq => ?_, fun i hi => (hcomplies i hi).onDevice,
    fun hids q hq => ?_⟩
  · have hlinked := (hcomplies _ hgate).linked rfl
    exact ⟨(Topology.joins_of_adjacent hlinked).2.2, hlinked⟩
  · have hmem := mem_of_forall₂_sits hs₂ hinitial q hq
    rwa [htopology] at hmem
  · show q.id < (registerSize s₃.topology).toNat
    rw [hsame]
    exact lt_registerSize hids hq

/-- Three qubits that all interact, on a line: the last gate needs a swap. -/
theorem remap_complies_line :
    ∃ out, remap "OPENQASM 2.0; qreg q[3]; cx q[0],q[1]; cx q[1],q[2]; swap q[2],q[0]; barrier q;"
        (.linear 3) {} {} = .ok out ∧ out.report.metrics.swaps = 1 ∧
      (∀ name params a b, .gate name params [a, b] ∈ out.circuit.instructions →
        a ≠ b ∧ (Topology.linear 3).adjacent a b) ∧
      (∀ q ∈ out.circuit.initial, q ∈ (Topology.linear 3).qubits) ∧
      (∀ i ∈ out.circuit.instructions, ∀ q ∈ i.qubits, q ∈ (Topology.linear 3).qubits) ∧
      ∀ q ∈ (Topology.linear 3).qubits, q.id < out.circuit.size.toNat := by
  have hswaps : (remap
      "OPENQASM 2.0; qreg q[3]; cx q[0],q[1]; cx q[1],q[2]; swap q[2],q[0]; barrier q;"
      (.linear 3) {} {}).toOption.map (·.report.metrics.swaps) = some 1 := by
    decide +kernel
  obtain ⟨out, hout, hswaps⟩ := Option.map_eq_some_iff.mp hswaps
  rw [toOption_eq_some_iff] at hout
  obtain ⟨hlinked, hinitial, hinstructions, hregister⟩ := remap_complies hout
  exact ⟨out, hout, hswaps, hlinked, hinitial, hinstructions, hregister (by decide)⟩

end Pass

end QubitRouting
