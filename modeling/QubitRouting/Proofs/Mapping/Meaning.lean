import QubitRouting.Proofs.Mapping.Emission
import QubitRouting.Topology.Presets

/-!
# Mapping keeps the meaning of a circuit

A circuit acts on a value for every qubit and on classical bits, in whatever way its gates are
interpreted (`Interpretation`). The mapped circuit does to the places of the device what the source
circuit does to the qubits that sit there. The invariant is `Agrees`: the value of a placed qubit is
the value at its present place. An inserted swap changes the places and the values in the same way,
and every other instruction acts on both sides alike.
-/

set_option autoImplicit false

namespace QubitRouting

universe u v

/-- What gates, measurements and resets do to values of qubits. -/
structure Interpretation (V : Type u) (B : Type v) where
  single : String → Option String → V → V
  double : String → Option String → V × V → V × V
  measure : V → V × B
  reset : V → V
  double_swap : ∀ v, double "swap" none v = v.swap

/-- The values of qubits, and of the classical bits that have been set. -/
structure Valuation (Q : Type) (V : Type u) (B : Type v) where
  qubits : Q → V
  bits : String → Option B

namespace Valuation

variable {Q : Type} [DecidableEq Q] {V : Type u} {B : Type v}

def setQubit (x : Valuation Q V B) (q : Q) (v : V) : Valuation Q V B :=
  { x with qubits := Function.update x.qubits q v }

def setBit (x : Valuation Q V B) (bit : String) (b : B) : Valuation Q V B :=
  { x with bits := Function.update x.bits bit (some b) }

end Valuation

namespace Interpretation

variable {Q : Type} [DecidableEq Q] {V : Type u} {B : Type v} (I : Interpretation V B)

/-- One instruction. Declarations and barriers do nothing, and gates act on one qubit or on two: the
parser takes no others. -/
def exec (x : Valuation Q V B) : Instruction Q → Valuation Q V B
  | .gate name params [q] => x.setQubit q (I.single name params (x.qubits q))
  | .gate name params [a, b] =>
    let v := I.double name params (x.qubits a, x.qubits b)
    (x.setQubit a v.1).setQubit b v.2
  | .measure q bit =>
    let v := I.measure (x.qubits q)
    (x.setQubit q v.1).setBit bit v.2
  | .reset q => x.setQubit q (I.reset (x.qubits q))
  | _ => x

/-- A circuit, instruction by instruction. -/
def run (x : Valuation Q V B) (circuit : List (Instruction Q)) : Valuation Q V B :=
  circuit.foldl I.exec x

@[simp] theorem run_nil (x : Valuation Q V B) : I.run x [] = x := rfl

@[simp] theorem run_cons (x : Valuation Q V B) (i : Instruction Q) (is : List (Instruction Q)) :
    I.run x (i :: is) = I.run (I.exec x i) is := rfl

@[simp] theorem run_append (x : Valuation Q V B) (is is' : List (Instruction Q)) :
    I.run x (is ++ is') = I.run (I.run x is) is' :=
  List.foldl_append

/-! ## Swaps -/

theorem qubits_exec_ofSwap (y : Valuation PhysicalQubit V B) (s : Swap) (p : PhysicalQubit) :
    (I.exec y (.ofSwap s)).qubits (s.perm p) = y.qubits p := by
  simp only [Instruction.ofSwap, exec, I.double_swap, Valuation.setQubit, Prod.swap_prod_mk,
    Function.update_apply, Swap.perm, Equiv.swap_apply_def]
  by_cases h₁ : p = s.1
  · simp [h₁]
  · by_cases h₂ : p = s.2
    · subst h₂
      simp only [h₁, if_true, if_false]
      split
      · exact congrArg y.qubits ‹_›
      · rfl
    · simp [h₁, h₂]

/-- Swaps move the values to where they carry the places. -/
theorem run_ofSwaps (y : Valuation PhysicalQubit V B) (swaps : List Swap) :
    (I.run y (swaps.map .ofSwap)).bits = y.bits ∧
      ∀ p, (I.run y (swaps.map .ofSwap)).qubits (Swap.carry swaps p) = y.qubits p := by
  induction swaps generalizing y with
  | nil => exact ⟨rfl, fun p => rfl⟩
  | cons s swaps ih =>
    obtain ⟨hbits, hqubits⟩ := ih (I.exec y (.ofSwap s))
    refine ⟨hbits, fun p => ?_⟩
    rw [List.map_cons, run_cons, Swap.carry_cons, hqubits, qubits_exec_ofSwap]

end Interpretation

namespace Pass

variable {V : Type u} {B : Type v} {I : Interpretation V B} {s s' : Session} {costs : CostModel}
  {x : Valuation String V B} {y : Valuation PhysicalQubit V B}

/-! ## The invariant

Its two ends are stated over layouts: `Layout.reading` is the start of the source circuit, and
`Realizes` says that the mapped circuit does the same. -/

/-- The device holds the values of the source circuit, each at the place of its qubit. -/
structure Agrees (s : Session) (x : Valuation String V B) (y : Valuation PhysicalQubit V B) :
    Prop where
  bits : x.bits = y.bits
  qubits : ∀ {name q}, Sits s name q → x.qubits name = y.qubits q

theorem Agrees.setQubit (h : Agrees s x y) (hs : s.Valid) {a : String} {q : PhysicalQubit}
    (ha : Sits s a q) (v : V) : Agrees s (x.setQubit a v) (y.setQubit q v) := by
  refine ⟨h.bits, fun {name p} hp => ?_⟩
  simp only [Valuation.setQubit, Function.update_apply]
  by_cases hname : name = a
  · subst hname
    obtain rfl := Option.some.inj (ha.symm.trans hp)
    rw [if_pos rfl, if_pos rfl]
  · -- Two names never share a place, so no other qubit notices.
    have hpq : p ≠ q := fun hpq => hname (eq_of_sits hs (hpq ▸ hp) ha)
    rw [if_neg hname, if_neg hpq, h.qubits hp]

theorem Agrees.setBit (h : Agrees s x y) (bit : String) (b : B) :
    Agrees s (x.setBit bit b) (y.setBit bit b) :=
  ⟨by simp only [Valuation.setBit, h.bits], h.qubits⟩

/-- The same instruction on both sides keeps the agreement. -/
theorem Agrees.exec (h : Agrees s x y) (hs : s.Valid) {i : Instruction String}
    {j : Instruction PhysicalQubit} (hij : i.Related (Sits s) j) :
    Agrees s (I.exec x i) (I.exec y j) := by
  cases hij with
  | creg decl => exact h
  | @gate name params names qs hqs =>
    match names, qs, hqs with
    | [], [], _ => exact h
    | [a], [qa], .cons ha .nil =>
      simp only [Interpretation.exec, h.qubits ha]
      exact h.setQubit hs ha _
    | [a, b], [qa, qb], .cons ha (.cons hb .nil) =>
      simp only [Interpretation.exec, h.qubits ha, h.qubits hb]
      exact (h.setQubit hs ha _).setQubit hs hb _
    | _ :: _ :: _ :: _, _ :: _ :: _ :: _, _ => exact h
  | measure bit hq =>
    simp only [Interpretation.exec, h.qubits hq]
    exact (h.setQubit hs hq _).setBit bit _
  | reset hq =>
    simp only [Interpretation.exec, h.qubits hq]
    exact h.setQubit hs hq _
  | barrier hqs => exact h

/-- Swaps on the side of the device alone keep the agreement. -/
theorem Agrees.approached (h : Agrees s x y) {i : Instruction String} {swaps : List Swap}
    (hi : Approached s i swaps s') : Agrees s' x (I.run y (swaps.map .ofSwap)) := by
  obtain ⟨hbits, hqubits⟩ := I.run_ofSwaps y swaps
  refine ⟨h.bits.trans hbits.symm, fun hq => ?_⟩
  obtain ⟨p, hp, rfl⟩ := hi.sits_iff.mp hq
  rw [h.qubits hp, hqubits]

theorem Agrees.emits (h : Agrees s x y) (hs : s.Valid) {src : List (Instruction String)}
    {e : Emission} (hemits : Emits costs s src e s') :
    Agrees s' (I.run x src) (I.run y e.instructions) := by
  induction src generalizing s x y e with
  | nil =>
    obtain ⟨rfl, rfl⟩ := emits_nil.mp hemits
    exact h
  | cons i src ih =>
    obtain ⟨swaps, j, s₁, e', happ, hij, hrest, rfl⟩ := emits_cons.mp hemits
    have hs₁ : s₁.Valid := (hs.change happ.change).1
    -- First the swaps, on the side of the device alone, and then the instruction on both sides.
    have hstep : Agrees s₁ (I.exec x i) (I.exec (I.run y (swaps.map .ofSwap)) j) :=
      (h.approached happ).exec hs₁ hij
    simpa [written, append_def] using ih hstep hs₁ hrest

end Pass

/-- The values that a layout finds at the places of named qubits. A name without a place has the
value that `rest` gives it. -/
def Layout.reading {V : Type u} {B : Type v} (m : Layout) (g : InteractionGraph)
    (y : Valuation PhysicalQubit V B) (rest : String → V) : Valuation String V B where
  qubits name :=
    match (g.named? name).bind m.physical with
    | some q => y.qubits q
    | none => rest name
  bits := y.bits

/-- Under every interpretation and from all values on the device, a mapped circuit sets the bits as
the source circuit does, and leaves the value of every qubit at its place in the layout `m₁`. The
source circuit starts with the values that the layout `m₀` finds. -/
def Realizes (g : InteractionGraph) (m₀ m₁ : Layout) (src : List (Instruction String))
    (out : List (Instruction PhysicalQubit)) : Prop :=
  ∀ {V : Type u} {B : Type v} (I : Interpretation V B) (y : Valuation PhysicalQubit V B)
    (rest : String → V),
    (I.run y out).bits = (I.run (m₀.reading g y rest) src).bits ∧
      ∀ l q, m₁.physical l = some q →
        (I.run y out).qubits q = (I.run (m₀.reading g y rest) src).qubits (g.nameOf l)

/-- A mapped circuit is written behind the initial places. -/
theorem MappedCircuit.exists_text_eq (c : MappedCircuit) :
    ∃ rest, c.text = "//i" ++ String.join (c.initial.map (" " ++ ·.label)) ++ "\n" ++ rest := by
  rw [text, lines, List.map_append, List.map_cons, List.cons_append, String.join_cons,
    String.join_cons]
  exact ⟨_, rfl⟩

namespace Pass

variable {s s' : Session} {costs : CostModel} {m₀ m₁ : Layout}

theorem agrees_reading {V : Type u} {B : Type v} (hm₀ : s.layout? = some m₀)
    (y : Valuation PhysicalQubit V B) (rest : String → V) :
    Agrees s (m₀.reading s.graph y rest) y := by
  refine ⟨rfl, fun {name q} hq => ?_⟩
  obtain ⟨l, m, hl, hm, hp⟩ := Session.whereIs_eq_some_iff.mp hq
  obtain rfl := Option.some.inj (hm₀.symm.trans hm)
  simp only [Layout.reading, hl, Option.bind_some, hp]

theorem Emits.realizes {src : List (Instruction String)} {e : Emission} (hs : s.Valid)
    (hm₀ : s.layout? = some m₀) (hm₁ : s'.layout? = some m₁) (h : Emits costs s src e s') :
    Realizes.{u, v} s.graph m₀ m₁ src e.instructions := by
  intro V B I y rest
  obtain ⟨hs', hgraph, -, -⟩ := h.session hs
  have hagrees := (agrees_reading hm₀ y rest).emits (I := I) hs h
  refine ⟨hagrees.bits.symm, fun l q hq => ?_⟩
  have hsits := sits_nameOf hs' hm₁ hq
  rw [hgraph] at hsits
  exact (hagrees.qubits hsits).symm

/-- **Mapping preserves meaning**: on every session that requests lead to and that has been placed,
whatever the second pass writes realizes the expanded source circuit, between the layouts before and
after the pass. The first of them is the one that the first line of the text shows. -/
theorem emit_preserves_meaning {t : Topology} {p : Program} {r : Registers} {out : Mapped}
    (hs : Session.Reachable t s) (hm₀ : s.layout? = some m₀)
    (hout : (emit p r costs).run.run s = (.ok out, s')) :
    ∃ src m₁, r.circuit p = .ok src ∧ s'.layout? = some m₁ ∧
      List.Forall₂ (fun name q => ∃ l, s.graph.named? name = some l ∧ m₀.physical l = some q)
        r.qubitNames out.circuit.initial ∧
      (∃ rest, out.circuit.text =
        "//i" ++ String.join (out.circuit.initial.map (" " ++ ·.label)) ++ "\n" ++ rest) ∧
      Realizes.{u, v} s.graph m₀ m₁ src out.circuit.instructions := by
  obtain ⟨hvalid, -⟩ := hs.valid
  obtain ⟨initial, src, e, hinitial, hsrc, hemits, rfl⟩ := gives_emit_iff.mp hout
  obtain ⟨-, -, -, hlayout⟩ := hemits.session hvalid
  obtain ⟨m₁, hm₁⟩ := Option.isSome_iff_exists.mp (hlayout.trans (by rw [hm₀]; rfl))
  refine ⟨src, m₁, hsrc, hm₁, hinitial.imp ?_, MappedCircuit.exists_text_eq _,
    hemits.realizes hvalid hm₀ hm₁⟩
  intro name q hq
  obtain ⟨l, m, hl, hm, hp⟩ := Session.whereIs_eq_some_iff.mp hq
  obtain rfl := Option.some.inj (hm₀.symm.trans hm)
  exact ⟨l, hl, hp⟩

/-- Three qubits that all interact, on a line: the gate on the outer two needs a swap. -/
theorem emit_preserves_meaning_line :
    ∃ (p : Program) (s s' : Session) (m₀ : Layout) (out : Mapped),
      Session.Reachable (.linear 3) s ∧ s.layout? = some m₀ ∧
      (emit p (.ofProgram p) {}).run.run s = (.ok out, s') ∧ s'.swaps = 1 ∧
      ∃ src m₁, (Registers.ofProgram p).circuit p = .ok src ∧ s'.layout? = some m₁ ∧
        List.Forall₂ (fun name q => ∃ l, s.graph.named? name = some l ∧ m₀.physical l = some q)
          (Registers.ofProgram p).qubitNames out.circuit.initial ∧
        (∃ rest, out.circuit.text =
          "//i" ++ String.join (out.circuit.initial.map (" " ++ ·.label)) ++ "\n" ++ rest) ∧
        Realizes.{u, v} s.graph m₀ m₁ src out.circuit.instructions := by
  let p : Program := ⟨"2.0",
    [.qreg ⟨"q", 3⟩, .creg ⟨"c", 1⟩, .gate ⟨"swap", none, [⟨"q", some 0⟩, ⟨"q", some 1⟩], 1⟩,
      .gate ⟨"cx", none, [⟨"q", some 1⟩, ⟨"q", some 2⟩], 2⟩,
      .gate ⟨"cx", none, [⟨"q", some 2⟩, ⟨"q", some 0⟩], 3⟩,
      .measure ⟨"q", some 0⟩ ⟨"c", some 0⟩]⟩
  let calls : List Session.Call :=
    [.recordInteraction "q[0]" "q[1]", .recordInteraction "q[1]" "q[2]",
      .recordInteraction "q[2]" "q[0]", .place]
  let s : Session := calls.foldl .after (.new (.linear 3) {} {})
  have hs : Session.Reachable (.linear 3) s := (Session.Reachable.new {} {}).calls calls
  obtain ⟨m₀, hm₀⟩ := Option.isSome_iff_exists.mp (by decide +kernel : s.layout?.isSome)
  obtain ⟨out, hout⟩ := Option.isSome_iff_exists.mp
    (by decide +kernel : ((emit p (.ofProgram p) {}).run.run s).1.toOption.isSome)
  have hswaps : ((emit p (.ofProgram p) {}).run.run s).2.swaps = 1 := by decide +kernel
  have hrun := eq_of_toOption_fst hout
  exact ⟨p, s, _, m₀, out, hs, hm₀, hrun, hswaps, emit_preserves_meaning hs hm₀ hrun⟩

end Pass

end QubitRouting
