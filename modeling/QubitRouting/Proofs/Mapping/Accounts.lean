import QubitRouting.Proofs.Mapping.Recovery

/-!
# The report and the circuit

A report is what a reader of the mapped circuit would count. Its cost is that of all gates in the
circuit, counted with 64 bits. The session counts one two-qubit operation for each gate of the
source on two qubits, and one swap for each further gate on two qubits in the output: what is not a
gate of the source was inserted.
-/

set_option autoImplicit false

namespace QubitRouting

namespace Instruction

variable {Q Q' : Type}

/-- The cost of all gates of a circuit. -/
def totalCost (costs : CostModel) (is : List (Instruction Q)) : Nat :=
  is.foldr (fun i n => i.cost costs + n) 0

/-- The number of gates on two qubits. -/
def twoQubitGates (is : List (Instruction Q)) : Nat := is.countP (·.pair?.isSome)

theorem totalCost_append (costs : CostModel) (is is' : List (Instruction Q)) :
    totalCost costs (is ++ is') = totalCost costs is + totalCost costs is' := by
  induction is with
  | nil => exact (Nat.zero_add _).symm
  | cons i is ih =>
    have hcons (js : List (Instruction Q)) : totalCost costs (i :: js) =
        i.cost costs + totalCost costs js := rfl
    rw [List.cons_append, hcons, hcons, ih, Nat.add_assoc]

theorem totalCost_swaps (costs : CostModel) (swaps : List Swap) :
    totalCost costs (swaps.map ofSwap) = swaps.length * costs.swap := by
  induction swaps with
  | nil => exact (Nat.zero_mul _).symm
  | cons sw swaps ih =>
    have hcons : totalCost costs ((sw :: swaps).map ofSwap) =
        costs.swap + totalCost costs (swaps.map ofSwap) := rfl
    rw [hcons, ih, List.length_cons, Nat.succ_mul, Nat.add_comm]

theorem twoQubitGates_swaps (swaps : List Swap) :
    twoQubitGates (swaps.map ofSwap) = swaps.length := by
  rw [twoQubitGates, List.countP_map, List.countP_eq_length]
  intro sw _
  rfl

theorem isSome_pair?_gate (name : String) (params : Option String) (qs : List Q) :
    (gate name params qs).pair?.isSome = decide (qs.length = 2) := by
  rcases qs with _ | ⟨a, _ | ⟨b, _ | ⟨c, more⟩⟩⟩
  · rfl
  · rfl
  · rfl
  · simp [pair?]

/-- The same instruction on other qubits is on two qubits as well. -/
theorem Related.isSome_pair? {R : Q → Q' → Prop} {i : Instruction Q} {j : Instruction Q'}
    (h : Related R i j) :
    j.pair?.isSome = i.pair?.isSome := by
  cases h with
  | gate name params hqs => rw [isSome_pair?_gate, isSome_pair?_gate, hqs.length_eq]
  | creg decl => rfl
  | measure bit hq => rfl
  | reset hq => rfl
  | barrier hqs => rfl

end Instruction

/-! ## What a reader counts -/

/-- What a statement costs. -/
def Statement.cost (costs : CostModel) : Statement → Nat
  | gate call => costs.gateCost call.name call.operands.length
  | _ => 0

/-- Whether a statement is a gate on two operands. -/
def Statement.isTwoQubitGate : Statement → Bool
  | gate call => call.operands.length = 2
  | _ => false

namespace Program

/-- The cost of all gates of a program, each operand taken as one qubit. -/
def cost (costs : CostModel) (p : Program) : Nat :=
  p.statements.foldr (fun st n => st.cost costs + n) 0

/-- The number of gates on two operands. -/
def twoQubitGates (p : Program) : Nat := p.statements.countP (·.isTwoQubitGate)

end Program

namespace Pass

open Instruction

variable {costs : CostModel} {s s' : Session} {src : List (Instruction String)} {e : Emission}

/-! ## The second pass -/

theorem Approached.counters {i : Instruction String} {swaps : List Swap}
    (h : Approached s i swaps s') :
    s'.twoQubitOps = s.twoQubitOps + twoQubitGates [i] ∧ s'.swaps = s.swaps + swaps.length := by
  cases h with
  | pair name params hswaps => exact ⟨rfl, rfl⟩
  | other hi => simp [twoQubitGates, hi]

/-- **One pass over a circuit**: its gates are costed, and the counters are advanced as they
should. -/
theorem Emits.accounts (h : Emits costs s src e s') :
    e.cost = .ofNat (totalCost costs e.instructions) ∧
      s'.twoQubitOps = s.twoQubitOps + twoQubitGates src ∧
      ∃ inserted, s'.swaps = s.swaps + inserted ∧
        twoQubitGates e.instructions = twoQubitGates src + inserted := by
  induction src generalizing s e with
  | nil =>
    obtain ⟨rfl, rfl⟩ := emits_nil.mp h
    exact ⟨rfl, rfl, 0, rfl, rfl⟩
  | cons i src ih =>
    obtain ⟨swaps, j, s₁, e', happ, hij, hrest, rfl⟩ := emits_cons.mp h
    obtain ⟨hops, hswaps⟩ := happ.counters
    obtain ⟨hcost, hops', inserted, hswaps', hgates⟩ := ih hrest
    have hone : twoQubitGates [j] = twoQubitGates [i] := by
      simp only [twoQubitGates, List.countP_singleton, hij.isSome_pair?]
    have happend {Q : Type} (is is' : List (Instruction Q)) :
        twoQubitGates (is ++ is') = twoQubitGates is + twoQubitGates is' := List.countP_append
    have hsrc : twoQubitGates (i :: src) = twoQubitGates [i] + twoQubitGates src := happend [i] src
    rw [append_def, written, hsrc]
    refine ⟨?_, by omega, swaps.length + inserted, by omega, ?_⟩
    · rw [totalCost_append, totalCost_append, totalCost_swaps, UInt64.ofNat_add,
        UInt64.ofNat_add, hcost]
      rfl
    · rw [happend, happend, twoQubitGates_swaps, hone, hgates]
      omega

/-! ## The output as it is read -/

theorem counts_of_denotes (costs : CostModel) {is : List (Instruction PhysicalQubit)}
    {sts : List Statement} (h : List.Forall₂ Denotes is sts) :
    sts.foldr (fun st n => st.cost costs + n) 0 = totalCost costs is ∧
      sts.countP (·.isTwoQubitGate) = twoQubitGates is := by
  induction h with
  | nil => exact ⟨rfl, rfl⟩
  | @cons i st is sts hst _ ih =>
    have hone : st.cost costs = i.cost costs ∧ st.isTwoQubitGate = i.pair?.isSome := by
      cases hst with
      | gate name params qs line =>
        rw [isSome_pair?_gate]
        simp [Statement.cost, Statement.isTwoQubitGate, Instruction.cost]
      | creg d => exact ⟨rfl, rfl⟩
      | measure q o => exact ⟨rfl, rfl⟩
      | reset q => exact ⟨rfl, rfl⟩
      | barrier qs => exact ⟨rfl, rfl⟩
    constructor
    · rw [List.foldr_cons, ih.1, hone.1]
      rfl
    · rw [List.countP_cons, ih.2, hone.2, twoQubitGates, twoQubitGates, List.countP_cons]

/-- A circuit that can be read back has the gates that it was written with. -/
theorem counts_of_parse_text (costs : CostModel) {c : MappedCircuit} (hc : c.Legible) {q : Program}
    (hq : Program.parse c.text = .ok q) :
    q.cost costs = totalCost costs c.instructions ∧
      q.twoQubitGates = twoQubitGates c.instructions := by
  have hread := (MappedCircuit.parse_text_iff hc).mp ⟨q, hq⟩
  obtain ⟨sts, hsts, hparse⟩ := MappedCircuit.parse_text_eq hc hread
  obtain rfl := Except.ok.inj (hq.symm.trans hparse)
  obtain ⟨hcost, hgates⟩ := counts_of_denotes costs hsts
  constructor
  · have hincludes (n : Nat) :
        (c.includes.map Statement.includes).foldr (fun st n => st.cost costs + n) n = n := by
      induction c.includes with
      | nil => rfl
      | cons path paths ih => exact (Nat.zero_add _).trans ih
    rw [Program.cost, List.foldr_append, List.foldr_cons, hcost, hincludes]
    exact Nat.zero_add _
  · have hincludes : (c.includes.map Statement.includes).countP (·.isTwoQubitGate) = 0 := by
      rw [List.countP_map, List.countP_eq_zero]
      intro path _
      exact Bool.false_ne_true
    rw [Program.twoQubitGates, List.countP_append, List.countP_cons, hgates, hincludes]
    exact Nat.zero_add _

/-- **The report is what the output says**: its cost is that of all gates of the output, inserted
swaps included, with 64 bits, and the session has counted the gates of the source on two qubits, and
as swaps the further gates on two qubits of the output. A fresh session has counted nothing before,
so that its report has these numbers. They are the same for a reader of the output text. -/
theorem report_recomputed (costs : CostModel) :
    (∀ p r s s' out, (emit p r costs).run.run s = (.ok out, s') →
      ∃ src, r.circuit p = .ok src ∧ out.report.metrics = s'.metrics ∧
        out.report.cost.toNat = totalCost costs out.circuit.instructions % UInt64.size ∧
        s'.twoQubitOps = s.twoQubitOps + twoQubitGates src ∧
        twoQubitGates src ≤ twoQubitGates out.circuit.instructions ∧
        s'.swaps = s.swaps + (twoQubitGates out.circuit.instructions - twoQubitGates src)) ∧
    ∀ source t settings out, remap source t settings costs = .ok out →
      ∃ p src, Program.parse source = .ok p ∧ (Registers.ofProgram p).circuit p = .ok src ∧
        out.report.cost.toNat = totalCost costs out.circuit.instructions % UInt64.size ∧
        out.report.metrics.twoQubitOps = twoQubitGates src ∧
        out.report.metrics.twoQubitOps + out.report.metrics.swaps =
          twoQubitGates out.circuit.instructions ∧
        ∀ q, Program.parse out.circuit.text = .ok q →
          out.report.cost.toNat = q.cost costs % UInt64.size ∧
          out.report.metrics.twoQubitOps + out.report.metrics.swaps = q.twoQubitGates := by
  constructor
  · intro p r s s' out h
    obtain ⟨initial, src, e, -, hsrc, hemits, rfl⟩ := gives_emit_iff.mp h
    obtain ⟨hcost, hops, inserted, hswaps, hgates⟩ := hemits.accounts
    refine ⟨src, hsrc, rfl, ?_, hops, ?_, ?_⟩
    · show e.cost.toNat = totalCost costs e.instructions % UInt64.size
      rw [hcost]
      exact UInt64.toNat_ofNat'
    · show twoQubitGates src ≤ twoQubitGates e.instructions
      omega
    · show s'.swaps = s.swaps + (twoQubitGates e.instructions - twoQubitGates src)
      omega
  · intro source t settings out h
    obtain ⟨p, hp⟩ : ∃ p, Program.parse source = .ok p := by
      obtain ⟨p, _, _, _, _, _, hp, -⟩ := remap_eq_ok_iff.mp h
      exact ⟨p, hp⟩
    obtain ⟨s, m, src, e, hstages⟩ := exists_stages hp h
    obtain ⟨initial, s', hemits, -, rfl⟩ := hstages.emitted
    obtain ⟨-, _, -, -, hnoted⟩ := noted_of_gives_collect hstages.collected
    have hfresh : s.twoQubitOps = 0 ∧ s.swaps = 0 := by
      rw [hnoted.frame]
      exact ⟨rfl, rfl⟩
    obtain ⟨hcost, hops, inserted, hswaps, hgates⟩ := hemits.accounts
    have htotal : e.cost.toNat = totalCost costs e.instructions % UInt64.size := by
      rw [hcost]
      exact UInt64.toNat_ofNat'
    have hmetrics : s'.twoQubitOps + s'.swaps = twoQubitGates e.instructions := by
      simp only [hfresh] at hops hswaps
      omega
    refine ⟨p, src, hp, hstages.circuit, htotal, ?_, hmetrics, fun q hq => ?_⟩
    · show s'.twoQubitOps = twoQubitGates src
      simp only [hfresh] at hops
      omega
    · obtain ⟨hcost', hgates'⟩ :=
        counts_of_parse_text costs (hstages.legible hp hemits initial) hq
      rw [hcost', hgates']
      exact ⟨htotal, hmetrics⟩

/-- Three qubits that all interact, on a line: one swap is needed. -/
theorem report_recomputed_line :
    (∃ (p : Program) (s s' : Session) (out : Mapped),
      (emit p (.ofProgram p) {}).run.run s = (.ok out, s') ∧ s'.swaps = 1 ∧
      ∃ src, (Registers.ofProgram p).circuit p = .ok src ∧ out.report.metrics = s'.metrics ∧
        out.report.cost.toNat = totalCost {} out.circuit.instructions % UInt64.size ∧
        s'.twoQubitOps = s.twoQubitOps + twoQubitGates src ∧
        twoQubitGates src ≤ twoQubitGates out.circuit.instructions ∧
        s'.swaps = s.swaps + (twoQubitGates out.circuit.instructions - twoQubitGates src)) ∧
    ∃ out,
      remap "OPENQASM 2.0; qreg q[3]; cx q[0],q[1]; cx q[1],q[2]; cx q[2],q[0]; x q[0];" (.linear 3)
        {} {} = .ok out ∧ out.report.cost.toNat = 61 ∧
      ∃ p src,
      Program.parse "OPENQASM 2.0; qreg q[3]; cx q[0],q[1]; cx q[1],q[2]; cx q[2],q[0]; x q[0];" =
          .ok p ∧ (Registers.ofProgram p).circuit p = .ok src ∧
        out.report.cost.toNat = totalCost {} out.circuit.instructions % UInt64.size ∧
        out.report.metrics.twoQubitOps = twoQubitGates src ∧
        out.report.metrics.twoQubitOps + out.report.metrics.swaps =
          twoQubitGates out.circuit.instructions ∧
        ∀ q, Program.parse out.circuit.text = .ok q →
          out.report.cost.toNat = q.cost {} % UInt64.size ∧
          out.report.metrics.twoQubitOps + out.report.metrics.swaps = q.twoQubitGates := by
  constructor
  · let p : Program := ⟨"2.0",
      [.qreg ⟨"q", 3⟩, .gate ⟨"cx", none, [⟨"q", some 0⟩, ⟨"q", some 1⟩], 1⟩,
        .gate ⟨"cx", none, [⟨"q", some 1⟩, ⟨"q", some 2⟩], 2⟩,
        .gate ⟨"cx", none, [⟨"q", some 2⟩, ⟨"q", some 0⟩], 3⟩]⟩
    let calls : List Session.Call :=
      [.recordInteraction "q[0]" "q[1]", .recordInteraction "q[1]" "q[2]",
        .recordInteraction "q[2]" "q[0]", .place]
    let s : Session := calls.foldl .after (.new (.linear 3) {} {})
    obtain ⟨out, hout⟩ := Option.isSome_iff_exists.mp
      (by decide +kernel : ((emit p (.ofProgram p) {}).run.run s).1.toOption.isSome)
    have hswaps : ((emit p (.ofProgram p) {}).run.run s).2.swaps = 1 := by decide +kernel
    exact ⟨p, s, _, out, eq_of_toOption_fst hout, hswaps,
      (report_recomputed {}).1 p _ s _ out (eq_of_toOption_fst hout)⟩
  · have hcost : (remap
        "OPENQASM 2.0; qreg q[3]; cx q[0],q[1]; cx q[1],q[2]; cx q[2],q[0]; x q[0];" (.linear 3)
        {} {}).toOption.map (·.report.cost.toNat) = some 61 := by
      decide +kernel
    obtain ⟨out, hout, hcost⟩ := Option.map_eq_some_iff.mp hcost
    rw [toOption_eq_some_iff] at hout
    exact ⟨out, hout, hcost, (report_recomputed {}).2 _ _ _ out hout⟩

end Pass

end QubitRouting
