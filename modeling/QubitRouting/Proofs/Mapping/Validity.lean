import QubitRouting.Proofs.Circuit.Broadcast
import QubitRouting.Proofs.Mapping.Readback

/-!
# Mapped circuits as sources

What a mapped circuit names was named by its source, apart from the swaps and the device register:
gates keep their names, parameters and numbers of operands, and the bits of measurements are written
as operands of the source or as elements of its registers (`MappedCircuit.Legible`). So a mapped
circuit can be read back, unless a barrier of the source is on no qubit
(`Pass.remap_readable_iff`).
-/

set_option autoImplicit false

namespace QubitRouting

/-! ## Expansion -/

namespace Expansion

variable {es : List Expansion} {e : Expansion} {n i : Nat}

/-- The name that takes part in an application is one of the names. -/
theorem pick_mem (h : width es = .ok n) (he : e ∈ es) (hi : i < n) : e.pick i ∈ e.names :=
  ((width_eq_ok_iff.mp h).takes_pick he hi).mem

theorem length_of_mem_broadcast {apps : List (List String)} (h : broadcast es = .ok apps)
    {app : List String} (happ : app ∈ apps) : app.length = es.length := by
  obtain ⟨n, -, happs⟩ := bind_eq_ok_iff.mp h
  obtain rfl := Except.ok.inj happs
  obtain ⟨i, -, rfl⟩ := List.mem_map.mp happ
  exact List.length_map _

end Expansion

namespace Registers

variable {r : Registers} {decls : List RegisterDecl}

theorem size_lt_of_sizeOf? (hdecls : ∀ d ∈ decls, d.Legible) {name : String} {size : Nat}
    (h : sizeOf? decls name = some size) : size < Parser.indexLimit := by
  obtain ⟨d, hd, rfl⟩ := Option.map_eq_some_iff.mp h
  exact (hdecls d (List.mem_reverse.mp (List.mem_of_find?_eq_some hd))).size

/-- Every name that an operand stands for is written as an operand of the same register. -/
theorem exists_operand_of_expand (hdecls : ∀ d ∈ decls, d.Legible) {o : Operand} (ho : o.Legible)
    {names : List String} (h : expand decls o = .ok names) {name : String} (hname : name ∈ names) :
    ∃ o' : Operand, o'.Legible ∧ o'.register = o.register ∧ o'.text = name := by
  have hself (hnames : names = [o.text]) :
      ∃ o' : Operand, o'.Legible ∧ o'.register = o.register ∧ o'.text = name :=
    ⟨o, ho, rfl, by rw [hnames] at hname; exact (List.mem_singleton.mp hname).symm⟩
  unfold expand at h
  split at h
  · split at h
    · cases h
    · exact hself (Except.ok.inj h).symm
  · rename_i size hsize _
    obtain rfl := Except.ok.inj h
    obtain ⟨i, hi, rfl⟩ := List.mem_map.mp hname
    have hlt := Nat.lt_trans (List.mem_range.mp hi) (size_lt_of_sizeOf? hdecls hsize)
    exact ⟨⟨o.register, some i⟩, ⟨ho.register, fun j hj => Option.some.inj hj ▸ hlt⟩, rfl, rfl⟩
  · exact hself (Except.ok.inj h).symm

theorem length_of_mem_applications {os : List Operand} {apps : List (List String)}
    (h : r.applications os = .ok apps) {app : List String} (happ : app ∈ apps) :
    app.length = os.length := by
  obtain ⟨es, hes, hbroadcast⟩ := bind_eq_ok_iff.mp h
  rw [Expansion.length_of_mem_broadcast hbroadcast happ]
  exact (mapM_eq_ok_iff.mp hes).length_eq.symm

theorem exists_operand_of_measurements (hcregs : ∀ d ∈ r.cregs, d.Legible) {q b : Operand}
    (hb : b.Legible) {pairs : List (String × String)} (h : r.measurements q b = .ok pairs)
    {pair : String × String} (hpair : pair ∈ pairs) :
    ∃ o : Operand, o.Legible ∧ o.register = b.register ∧ o.text = pair.2 := by
  obtain ⟨qnames, -, h⟩ := bind_eq_ok_iff.mp h
  obtain ⟨bnames, hbnames, h⟩ := bind_eq_ok_iff.mp h
  obtain ⟨n, hn, h⟩ := bind_eq_ok_iff.mp h
  obtain rfl := Except.ok.inj h
  obtain ⟨i, hi, rfl⟩ := List.mem_map.mp hpair
  have hpick := Expansion.pick_mem hn (List.mem_pair.mpr (.inr rfl)) (List.mem_range.mp hi)
  exact exists_operand_of_expand hcregs hb hbnames hpick

theorem legible_instructions (hcregs : ∀ d ∈ r.cregs, d.Legible) {st : Statement} (hst : st.Legible)
    {is : List (Instruction String)} (h : r.instructions st = .ok is) : ∀ i ∈ is, i.Legible := by
  intro i hi
  cases st with
  | includes | qreg =>
    obtain rfl := Except.ok.inj h
    cases hi
  | creg d =>
    obtain rfl := Except.ok.inj h
    obtain rfl := List.mem_singleton.mp hi
    exact hst
  | gate g =>
    obtain ⟨apps, happs, h⟩ := bind_eq_ok_iff.mp h
    obtain rfl := Except.ok.inj h
    obtain ⟨app, happ, rfl⟩ := List.mem_map.mp hi
    have hlength := length_of_mem_applications happs happ
    refine ⟨hst.name, hst.supported, hst.params, ?_, hlength ▸ hst.few⟩
    intro hnil
    rw [hnil] at hlength
    exact hst.nonempty (List.eq_nil_of_length_eq_zero hlength.symm)
  | measure q b =>
    obtain ⟨pairs, hpairs, h⟩ := bind_eq_ok_iff.mp h
    obtain rfl := Except.ok.inj h
    obtain ⟨pair, hpair, rfl⟩ := List.mem_map.mp hi
    obtain ⟨o, ho, -, htext⟩ := exists_operand_of_measurements hcregs hst.2 hpairs hpair
    exact ⟨o, ho, htext⟩
  | reset q =>
    obtain ⟨names, -, h⟩ := bind_eq_ok_iff.mp h
    obtain rfl := Except.ok.inj h
    obtain ⟨name, -, rfl⟩ := List.mem_map.mp hi
    trivial
  | barrier qs =>
    obtain ⟨names, -, rfl⟩ := Pass.instructions_barrier_eq_ok_iff.mp h
    obtain rfl := List.mem_singleton.mp hi
    trivial

theorem flatten_eq_nil_iff {os : List Operand} {names : List (List String)}
    (h : List.Forall₂ (fun o ns => r.expandQubits o = .ok ns) os names) :
    names.flatten = [] ↔ ∀ o ∈ os, r.expandQubits o = .ok [] := by
  induction h with
  | nil => simp
  | cons ho _ ih => rw [List.flatten_cons, List.append_eq_nil_iff, ih, List.forall_mem_cons, ho,
      Except.ok.injEq]

/-- A barrier on no qubit comes from a barrier all of whose operands are empty. -/
theorem barrier_nil_mem_instructions {st : Statement} {is : List (Instruction String)}
    (h : r.instructions st = .ok is) :
    .barrier [] ∈ is ↔ ∃ qs, st = .barrier qs ∧ ∀ o ∈ qs, r.expandQubits o = .ok [] := by
  have hother (hno : .barrier [] ∉ is) (hst : ∀ qs, st ≠ .barrier qs) :
      .barrier [] ∈ is ↔ ∃ qs, st = .barrier qs ∧ ∀ o ∈ qs, r.expandQubits o = .ok [] :=
    iff_of_false hno fun ⟨qs, heq, _⟩ => hst qs heq
  cases st with
  | includes | qreg =>
    obtain rfl := Except.ok.inj h
    exact hother (by simp) (by simp)
  | creg d =>
    obtain rfl := Except.ok.inj h
    exact hother (by simp) (by simp)
  | gate | measure | reset =>
    obtain ⟨xs, -, h⟩ := bind_eq_ok_iff.mp h
    obtain rfl := Except.ok.inj h
    exact hother (by simp) (by simp)
  | barrier qs =>
    obtain ⟨names, hnames, rfl⟩ := Pass.instructions_barrier_eq_ok_iff.mp h
    simp only [List.mem_singleton, Instruction.barrier.injEq, Statement.barrier.injEq,
      exists_eq_left']
    exact eq_comm.trans (flatten_eq_nil_iff (mapM_eq_ok_iff.mp hnames))

theorem legible_cregs {p : Program} (h : ∀ st ∈ p.statements, st.Legible) :
    ∀ d ∈ (ofProgram p).cregs, d.Legible := by
  intro d hd
  obtain ⟨st, hst, heq⟩ := List.mem_filterMap.mp hd
  split at heq
  · obtain rfl := Option.some.inj heq
    exact h _ hst
  · cases heq

end Registers

/-! ## The circuit -/

theorem Instruction.Related.legible {Q Q' : Type} {R : Q → Q' → Prop} {i : Instruction Q}
    {j : Instruction Q'} (h : Related R i j) (hi : i.Legible) : j.Legible := by
  cases h with
  | creg => exact hi
  | gate _ _ hqs =>
    obtain ⟨hname, hsupported, hparams, hne, hfew⟩ := hi
    refine ⟨hname, hsupported, hparams, ?_, hqs.length_eq ▸ hfew⟩
    intro hnil
    subst hnil
    exact hne (List.forall₂_nil_right_iff.mp hqs)
  | measure => exact hi
  | reset => trivial
  | barrier => trivial

theorem Instruction.Related.barrier_nil {Q Q' : Type} {R : Q → Q' → Prop} {i : Instruction Q}
    {j : Instruction Q'} (h : Related R i j) : .barrier [] = j ↔ .barrier [] = i := by
  cases h with
  | creg | gate | measure | reset => simp
  | barrier hqs =>
    simp only [Instruction.barrier.injEq]
    constructor
    · intro hnil
      subst hnil
      exact (List.forall₂_nil_right_iff.mp hqs).symm
    · intro hnil
      subst hnil
      exact (List.forall₂_nil_left_iff.mp hqs).symm

theorem Instruction.legible_ofSwap (s : Swap) : (ofSwap s).Legible := by
  refine ⟨⟨⟨'s', ['w', 'a', 'p'], rfl, by decide, by decide⟩, by decide⟩, by decide, ?_, by simp,
    Nat.le_refl 2⟩
  intro text h
  cases h

namespace Pass

variable {s s' : Session} {costs : CostModel} {src : List (Instruction String)} {e : Emission}

theorem Emits.legible (h : Emits costs s src e s') (hsrc : ∀ i ∈ src, i.Legible) :
    ∀ j ∈ e.instructions, j.Legible := by
  induction src generalizing s e with
  | nil =>
    obtain ⟨rfl, -⟩ := emits_nil.mp h
    simp [Emission.empty]
  | cons i src ih =>
    obtain ⟨swaps, j, s₁, e', -, hij, hrest, rfl⟩ := emits_cons.mp h
    obtain ⟨hi, hsrc⟩ := List.forall_mem_cons.mp hsrc
    rw [append_def]
    refine List.forall_mem_append.mpr ⟨?_, ih hrest hsrc⟩
    refine List.forall_mem_append.mpr ⟨?_, by simpa using hij.legible hi⟩
    intro j' hj'
    obtain ⟨sw, -, rfl⟩ := List.mem_map.mp hj'
    exact Instruction.legible_ofSwap sw

theorem Emits.barrier_nil_mem (h : Emits costs s src e s') :
    .barrier [] ∈ e.instructions ↔ .barrier [] ∈ src := by
  induction src generalizing s e with
  | nil =>
    obtain ⟨rfl, -⟩ := emits_nil.mp h
    simp [Emission.empty]
  | cons i src ih =>
    obtain ⟨swaps, j, s₁, e', -, hij, hrest, rfl⟩ := emits_cons.mp h
    have hswaps : .barrier [] ∉ swaps.map Instruction.ofSwap := by
      simp [Instruction.ofSwap]
    rw [append_def, List.mem_append, ih hrest, written, List.mem_append, List.mem_singleton,
      hij.barrier_nil, List.mem_cons]
    simp only [hswaps, false_or]

/-- The instructions of a circuit are those of its statements. -/
theorem mem_circuit_iff {r : Registers} {p : Program} (h : r.circuit p = .ok src)
    {i : Instruction String} :
    i ∈ src ↔ ∃ st ∈ p.statements, ∃ is, r.instructions st = .ok is ∧ i ∈ is := by
  obtain ⟨parts, hparts, rfl⟩ := circuit_eq_ok_iff.mp h
  generalize p.statements = sts at hparts
  clear h
  induction hparts with
  | nil => simp
  | cons hst _ ih =>
    rw [List.flatten_cons, List.mem_append, ih, List.exists_mem_cons_iff, hst]
    simp only [Except.ok.injEq, exists_eq_left']

theorem legible_circuit {p : Program} (hp : ∀ st ∈ p.statements, st.Legible)
    (hsrc : (Registers.ofProgram p).circuit p = .ok src) : ∀ i ∈ src, i.Legible := by
  intro i hi
  obtain ⟨st, hst, is, his, hi⟩ := (mem_circuit_iff hsrc).mp hi
  exact Registers.legible_instructions (Registers.legible_cregs hp) (hp st hst) his i hi

theorem barrier_nil_mem_circuit {r : Registers} {p : Program} (h : r.circuit p = .ok src) :
    .barrier [] ∈ src ↔ ∃ qs, .barrier qs ∈ p.statements ∧ ∀ o ∈ qs, r.expandQubits o = .ok [] := by
  rw [mem_circuit_iff h]
  constructor
  · intro ⟨st, hst, is, his, hmem⟩
    obtain ⟨qs, rfl, hempty⟩ := (Registers.barrier_nil_mem_instructions his).mp hmem
    exact ⟨qs, hst, hempty⟩
  · intro ⟨qs, hst, hempty⟩
    have hnames : qs.mapM r.expandQubits = .ok (qs.map fun _ => []) :=
      mapM_eq_ok_iff.mpr (List.forall₂_map_right_iff.mpr (List.forall₂_same.mpr hempty))
    have his := instructions_barrier_eq_ok_iff.mpr ⟨_, hnames, rfl⟩
    exact ⟨_, hst, _, his, (Registers.barrier_nil_mem_instructions his).mpr ⟨qs, rfl, hempty⟩⟩

section

variable {p : Program} {t : Topology} {settings : MapperSettings} {costs : CostModel} {out : Mapped}
  {s s' : Session} {m : Layout} {src : List (Instruction String)} {e : Emission}

/-- What is written for a parsed program is legible. -/
theorem Stages.legible {source : String} (h : Stages p t settings costs out s m src e)
    (hp : Program.parse source = .ok p)
    (hemits : Emits costs { s with placed := some ⟨m, m⟩ } src e s')
    (initial : List PhysicalQubit) : (mapped p initial e s').circuit.Legible := by
  obtain ⟨hversion, hstatements⟩ := Program.legible_of_parse hp
  refine ⟨hversion, fun path hpath => ?_, hemits.legible (legible_circuit hstatements h.circuit)⟩
  obtain ⟨st, hst, heq⟩ := List.mem_filterMap.mp hpath
  split at heq
  · obtain rfl := Option.some.inj heq
    exact hstatements _ hst
  · cases heq

/-- On a device with numbers of 32 bits, nothing but empty barriers cannot be read back. -/
theorem Stages.readable_iff (h : Stages p t settings costs out s m src e) (ht : t.InRange)
    (hemits : Emits costs { s with placed := some ⟨m, m⟩ } src e s') :
    (∀ i ∈ e.instructions, i.Readable) ↔ .barrier [] ∉ e.instructions := by
  constructor
  · intro hread hmem
    exact (hread _ hmem).nonempty rfl
  · intro hbarrier i hi
    refine ⟨fun heq => hbarrier (heq ▸ hi), fun q hq => ?_⟩
    have hmem := (hemits.complies h.valid i hi).onDevice q hq
    rw [show Session.topology _ = t from h.topology] at hmem
    exact ht q hmem

end

/-- **Which outputs are sources again**: on a device with numbers of 32 bits, as every description
gives it (`DeviceSpec.inRange_of_build`), the output for a source text can be parsed exactly if
every barrier of the source has an operand that stands for some qubit. -/
theorem remap_readable_iff {source : String} {t : Topology} {settings : MapperSettings}
    {costs : CostModel} {p : Program} {out : Mapped} (ht : t.InRange)
    (hp : Program.parse source = .ok p) (h : remap source t settings costs = .ok out) :
    (∃ q, Program.parse out.circuit.text = .ok q) ↔
      ∀ qs, .barrier qs ∈ p.statements →
        ∃ o ∈ qs, (Registers.ofProgram p).expandQubits o ≠ .ok [] := by
  obtain ⟨s, m, src, e, hstages⟩ := exists_stages hp h
  obtain ⟨initial, s', hemits, -, rfl⟩ := hstages.emitted
  rw [MappedCircuit.parse_text_iff (hstages.legible hp hemits initial)]
  show (∀ i ∈ e.instructions, i.Readable) ↔ _
  rw [hstages.readable_iff ht hemits, hemits.barrier_nil_mem,
    barrier_nil_mem_circuit hstages.circuit]
  simp only [not_exists, not_and, not_forall, exists_prop, ne_eq]

/-- Parameters with a comment and parentheses inside, and a barrier on an empty register and on
another one. -/
theorem remap_readable_line :
    ∃ p out, Program.parse
          "OPENQASM 2.1; qreg q[3]; qreg e[0]; u(1,(2 // 2\n)) q[0]; cx q[0],q[2]; barrier e,q;" =
        .ok p ∧
      remap "OPENQASM 2.1; qreg q[3]; qreg e[0]; u(1,(2 // 2\n)) q[0]; cx q[0],q[2]; barrier e,q;"
        (.linear 3) {} {} = .ok out ∧ (Topology.linear 3).InRange ∧
      (∃ q, Program.parse out.circuit.text = .ok q) ∧
      ∀ qs, .barrier qs ∈ p.statements →
        ∃ o ∈ qs, (Registers.ofProgram p).expandQubits o ≠ .ok [] := by
  have hout : (remap
      "OPENQASM 2.1; qreg q[3]; qreg e[0]; u(1,(2 // 2\n)) q[0]; cx q[0],q[2]; barrier e,q;"
      (.linear 3) {} {}).toOption.map (fun out =>
        (Program.parse out.circuit.text).toOption.isSome) =
        some true := by
    decide +kernel
  have ht : (Topology.linear 3).InRange := by decide
  obtain ⟨out, hout, hread⟩ := Option.map_eq_some_iff.mp hout
  rw [toOption_eq_some_iff] at hout
  obtain ⟨q, hq⟩ := Option.isSome_iff_exists.mp hread
  rw [toOption_eq_some_iff] at hq
  obtain ⟨p, -, -, -, -, -, hp, -⟩ := remap_eq_ok_iff.mp hout
  exact ⟨p, out, hp, hout, ht, ⟨q, hq⟩, (remap_readable_iff ht hp hout).mp ⟨q, hq⟩⟩

/-- A barrier on an empty register is written without operands. -/
theorem remap_unreadable_barrier :
    ∃ out, remap "OPENQASM 2.0; qreg q[1]; qreg e[0]; barrier e;" (.linear 1) {} {} = .ok out ∧
      ∀ q, Program.parse out.circuit.text ≠ .ok q := by
  have hout :
      (remap "OPENQASM 2.0; qreg q[1]; qreg e[0]; barrier e;" (.linear 1) {} {}).toOption.map
      (fun out => (Program.parse out.circuit.text).toOption) = some none := by
    decide +kernel
  obtain ⟨out, hout, hparse⟩ := Option.map_eq_some_iff.mp hout
  refine ⟨out, toOption_eq_some_iff.mp hout, fun q hq => ?_⟩
  rw [toOption_eq_some_iff.mpr hq] at hparse
  cases hparse

end Pass

end QubitRouting
