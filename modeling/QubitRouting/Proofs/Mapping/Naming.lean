import QubitRouting.Proofs.Mapping.Recovery

/-!
# Names of registers

A mapped circuit has one quantum register, whose name is fixed, and the classical registers of its
source under the names that they have there. Nothing keeps these names apart: a source may well have
a classical register with the name of the device register, which is then declared twice.
`remap_names_distinct_iff` says that this is the only way in which names that are distinct in the
source are not distinct in the output.
-/

set_option autoImplicit false

namespace QubitRouting

/-- The names of all registers that a program declares. -/
def Program.registerNames (p : Program) : List String :=
  p.qregs.map (·.name) ++ p.cregs.map (·.name)

namespace Instruction

/-- The classical register that an instruction declares. -/
def declaration? {Q : Type} : Instruction Q → Option RegisterDecl
  | creg decl => some decl
  | _ => none

/-- The classical registers that a circuit declares, in order. -/
def declarations {Q : Type} (is : List (Instruction Q)) : List RegisterDecl :=
  is.filterMap declaration?

theorem declarations_append {Q : Type} (is is' : List (Instruction Q)) :
    declarations (is ++ is') = declarations is ++ declarations is' :=
  List.filterMap_append

theorem declarations_map {α Q : Type} {f : α → Instruction Q} (hf : ∀ a, (f a).declaration? = none)
    (xs : List α) : declarations (xs.map f) = [] := by
  rw [declarations, List.filterMap_map, List.filterMap_eq_nil_iff]
  exact fun a _ => hf a

theorem Related.declaration? {Q Q' : Type} {R : Q → Q' → Prop} {i : Instruction Q}
    {j : Instruction Q'} (h : Related R i j) : j.declaration? = i.declaration? := by
  cases h <;> rfl

end Instruction

open Instruction

/-- The names of all registers that a mapped circuit declares. -/
def MappedCircuit.registerNames (c : MappedCircuit) : List String :=
  deviceRegister :: (declarations c.instructions).map (·.name)

namespace Pass

/-! ## Classical registers are kept -/

theorem declarations_circuit {r : Registers} {p : Program} {src : List (Instruction String)}
    (h : r.circuit p = .ok src) : declarations src = p.cregs := by
  obtain ⟨parts, hparts, rfl⟩ := circuit_eq_ok_iff.mp h
  clear h
  rw [Program.cregs]
  generalize p.statements = sts at hparts
  induction hparts with
  | nil => rfl
  | @cons st is sts parts hst hrest ih =>
    rw [List.flatten_cons, declarations_append, ih]
    cases st with
    | includes | qreg =>
      obtain rfl := Except.ok.inj hst
      rfl
    | creg decl =>
      obtain rfl := Except.ok.inj hst
      rfl
    | gate call =>
      obtain ⟨apps, -, hst⟩ := bind_eq_ok_iff.mp hst
      obtain rfl := Except.ok.inj hst
      rw [declarations_map fun _ => rfl]
      rfl
    | measure qubit bit =>
      obtain ⟨pairs, -, hst⟩ := bind_eq_ok_iff.mp hst
      obtain rfl := Except.ok.inj hst
      rw [declarations_map fun _ => rfl]
      rfl
    | reset qubit =>
      obtain ⟨names, -, hst⟩ := bind_eq_ok_iff.mp hst
      obtain rfl := Except.ok.inj hst
      rw [declarations_map fun _ => rfl]
      rfl
    | barrier qubits =>
      obtain ⟨names, -, rfl⟩ := instructions_barrier_eq_ok_iff.mp hst
      rfl

theorem Emits.declarations_eq {costs : CostModel} {s s' : Session} {src : List (Instruction String)}
    {e : Emission} (h : Emits costs s src e s') :
    declarations e.instructions = declarations src := by
  induction src generalizing s e with
  | nil =>
    obtain ⟨rfl, -⟩ := emits_nil.mp h
    rfl
  | cons i src ih =>
    obtain ⟨swaps, j, s₁, e', -, hij, hrest, rfl⟩ := emits_cons.mp h
    have hone : declarations [j] = declarations [i] := by
      rw [declarations, declarations, List.filterMap_cons, List.filterMap_cons, hij.declaration?]
      rfl
    have hsrc : declarations (i :: src) = declarations [i] ++ declarations src :=
      declarations_append [i] src
    rw [append_def, written, declarations_append, declarations_append,
      declarations_map fun _ => rfl, hone, ih hrest, hsrc]
    rfl

/-! ## Registers of the output as it is read -/

theorem registers_of_denotes {is : List (Instruction PhysicalQubit)} {sts : List Statement}
    (h : List.Forall₂ Denotes is sts) (version : String) :
    (Program.mk version sts).qregs = [] ∧ (Program.mk version sts).cregs = declarations is := by
  simp only [Program.qregs, Program.cregs]
  induction h with
  | nil => exact ⟨rfl, rfl⟩
  | cons hst _ ih =>
    cases hst with
    | creg d => exact ⟨ih.1, congrArg (d :: ·) ih.2⟩
    | gate | measure | reset | barrier => exact ih

theorem registerNames_of_parse_text {c : MappedCircuit} (hc : c.Legible) {q : Program}
    (hq : Program.parse c.text = .ok q) : q.registerNames = c.registerNames := by
  have hread := (MappedCircuit.parse_text_iff hc).mp ⟨q, hq⟩
  obtain ⟨sts, hsts, hparse⟩ := MappedCircuit.parse_text_eq hc hread
  obtain rfl := Except.ok.inj (hq.symm.trans hparse)
  obtain ⟨hqregs, hcregs⟩ := registers_of_denotes hsts c.version
  have hincludes (paths : List String) (sts : List Statement) :
      (Program.mk c.version (paths.map .includes ++ sts)).registerNames =
        (Program.mk c.version sts).registerNames := by
    induction paths with
    | nil => rfl
    | cons path paths ih => exact ih
  rw [hincludes, MappedCircuit.registerNames, ← hcregs]
  show deviceRegister :: (Program.mk c.version sts).registerNames = _
  rw [Program.registerNames, hqregs]
  rfl

/-- **Which outputs have distinct names**: the output declares the device register and the classical
registers of the source, and is read as a program with these registers. Where all names of the
source are distinct, those of the output are so exactly if no classical register is called as the
device register is. -/
theorem remap_names_distinct_iff {source : String} {t : Topology} {settings : MapperSettings}
    {costs : CostModel} {p : Program} {out : Mapped} (hp : Program.parse source = .ok p)
    (h : remap source t settings costs = .ok out) :
    out.circuit.registerNames = deviceRegister :: p.cregs.map (·.name) ∧
      (∀ q, Program.parse out.circuit.text = .ok q →
        q.registerNames = out.circuit.registerNames) ∧
      (p.registerNames.Nodup →
        (out.circuit.registerNames.Nodup ↔ deviceRegister ∉ p.cregs.map (·.name))) := by
  obtain ⟨s, m, src, e, hstages⟩ := exists_stages hp h
  obtain ⟨initial, s', hemits, -, rfl⟩ := hstages.emitted
  have hnames :
      (mapped p initial e s').circuit.registerNames = deviceRegister :: p.cregs.map (·.name) := by
    show deviceRegister :: (declarations e.instructions).map (·.name) = _
    rw [hemits.declarations_eq, declarations_circuit hstages.circuit]
  refine ⟨hnames, fun q hq => ?_, fun hdistinct => ?_⟩
  · exact registerNames_of_parse_text (hstages.legible hp hemits initial) hq
  · obtain ⟨-, hcregs, -⟩ := List.nodup_append.mp hdistinct
    rw [hnames, List.nodup_cons]
    exact and_iff_left hcregs

/-- A quantum register may have the name of the device register: it is gone in the output. -/
theorem remap_names_distinct_line :
    ∃ p out, Program.parse
          "OPENQASM 2.0; qreg Q[1]; qreg q[2]; creg c[1]; creg d[2]; cx Q,q[1]; measure Q -> c;" =
            .ok p ∧
      remap "OPENQASM 2.0; qreg Q[1]; qreg q[2]; creg c[1]; creg d[2]; cx Q,q[1]; measure Q -> c;"
        (.linear 3) {} {} = .ok out ∧ p.registerNames.Nodup ∧
        deviceRegister ∉ p.cregs.map (·.name) ∧
      out.circuit.registerNames = deviceRegister :: p.cregs.map (·.name) ∧
      out.circuit.registerNames.Nodup := by
  have hsource : (Program.parse
      "OPENQASM 2.0; qreg Q[1]; qreg q[2]; creg c[1]; creg d[2]; cx Q,q[1]; measure Q -> c;"
        ).toOption.map (fun p => (p.registerNames, p.cregs.map (·.name))) =
          some (["Q", "q", "c", "d"], ["c", "d"]) := by
    decide +kernel
  have hout : (remap
      "OPENQASM 2.0; qreg Q[1]; qreg q[2]; creg c[1]; creg d[2]; cx Q,q[1]; measure Q -> c;"
      (.linear 3) {} {}).toOption.isSome := by
    decide +kernel
  obtain ⟨p, hp, hnames⟩ := Option.map_eq_some_iff.mp hsource
  obtain ⟨out, hout⟩ := Option.isSome_iff_exists.mp hout
  rw [toOption_eq_some_iff] at hp hout
  obtain ⟨hall, hclassical⟩ := Prod.mk.inj hnames
  have hdistinct : p.registerNames.Nodup := by
    rw [hall]
    decide
  have hfree : deviceRegister ∉ p.cregs.map (·.name) := by
    rw [hclassical]
    decide
  obtain ⟨heq, -, hiff⟩ := remap_names_distinct_iff hp hout
  exact ⟨p, out, hp, hout, hdistinct, hfree, heq, (hiff hdistinct).mpr hfree⟩

/-- A classical register with the name of the device register is declared beside it. -/
theorem remap_declares_twice :
    ∃ p out q, Program.parse "OPENQASM 2.0; qreg q[1]; creg Q[1];" = .ok p ∧ p.registerNames.Nodup ∧
      remap "OPENQASM 2.0; qreg q[1]; creg Q[1];" (.linear 1) {} {} = .ok out ∧
      ¬ out.circuit.registerNames.Nodup ∧
      Program.parse out.circuit.text = .ok q ∧ ¬ q.registerNames.Nodup := by
  have hsource : (Program.parse "OPENQASM 2.0; qreg q[1]; creg Q[1];").toOption.map
      Program.registerNames = some ["q", "Q"] := by
    decide +kernel
  have hout : (remap "OPENQASM 2.0; qreg q[1]; creg Q[1];" (.linear 1) {} {}).toOption.map
      (fun out => (out.circuit.registerNames,
        (Program.parse out.circuit.text).toOption.map Program.registerNames)) =
        some (["Q", "Q"], some ["Q", "Q"]) := by
    decide +kernel
  obtain ⟨p, hp, hnames⟩ := Option.map_eq_some_iff.mp hsource
  obtain ⟨out, hout, hread⟩ := Option.map_eq_some_iff.mp hout
  obtain ⟨hmapped, hread⟩ := Prod.mk.inj hread
  obtain ⟨q, hq, hqnames⟩ := Option.map_eq_some_iff.mp hread
  rw [toOption_eq_some_iff] at hp hout hq
  refine ⟨p, out, q, hp, ?_, hout, ?_, hq, ?_⟩
  · rw [hnames]
    decide
  · rw [hmapped]
    decide
  · rw [hqnames]
    decide

end Pass

end QubitRouting
