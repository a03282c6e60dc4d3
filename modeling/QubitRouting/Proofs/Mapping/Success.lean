import Mathlib.Data.Finset.Card
import QubitRouting.Proofs.Mapping.Compliance

/-!
# When mapping succeeds

After a successful collection and placement the second pass cannot fail on a connected device: all
names of the circuit have their places, and routing keeps it so (`Pass.Ready`). Hence a source text
can be mapped exactly if its circuit can be expanded, no gate names one qubit twice, and there is a
placement.
-/

set_option autoImplicit false

namespace QubitRouting

theorem exists_forall₂ {α β : Type} {R : α → β → Prop} {xs : List α} (h : ∀ x ∈ xs, ∃ y, R x y) :
    ∃ ys, List.Forall₂ R xs ys := by
  induction xs with
  | nil => exact ⟨[], .nil⟩
  | cons x xs ih =>
    obtain ⟨y, hy⟩ := h x List.mem_cons_self
    obtain ⟨ys, hys⟩ := ih fun x' hx' => h x' (List.mem_cons_of_mem x hx')
    exact ⟨y :: ys, .cons hy hys⟩

theorem Instruction.exists_related {Q Q' : Type} {R : Q → Q' → Prop} {i : Instruction Q}
    (h : ∀ q ∈ i.qubits, ∃ q', R q q') : ∃ j, i.Related R j := by
  cases i with
  | creg decl => exact ⟨_, .creg decl⟩
  | gate name params qs =>
    obtain ⟨qs', hqs⟩ := exists_forall₂ h
    exact ⟨_, .gate name params hqs⟩
  | measure q bit =>
    obtain ⟨q', hq⟩ := h q (List.mem_singleton_self q)
    exact ⟨_, .measure bit hq⟩
  | reset q =>
    obtain ⟨q', hq⟩ := h q (List.mem_singleton_self q)
    exact ⟨_, .reset hq⟩
  | barrier qs =>
    obtain ⟨qs', hqs⟩ := exists_forall₂ h
    exact ⟨_, .barrier hqs⟩

namespace Pass

variable {s s' : Session} {costs : CostModel} {src : List (Instruction String)}
  {i : Instruction String}

/-! ## Emission does not fail -/

/-- Nothing stands in the way of the circuit. -/
structure Ready (s : Session) (src : List (Instruction String)) : Prop where
  valid : s.Valid
  connected : s.topology.Connected
  sits : ∀ i ∈ src, ∀ name ∈ i.qubits, ∃ q, Sits s name q
  apart : Apart src

theorem Ready.exists_swapsBetween {name : String} {params : Option String} {a b : String}
    (h : Ready s (.gate name params [a, b] :: src)) :
    ∃ placed swaps, s.swapsBetween a b = .ok (placed, swaps) := by
  have hab : a ≠ b := h.apart (a, b) (by simp [meetings, Instruction.pair?])
  obtain ⟨pa, ha⟩ := h.sits _ List.mem_cons_self a (by simp [Instruction.qubits])
  obtain ⟨pb, hb⟩ := h.sits _ List.mem_cons_self b (by simp [Instruction.qubits])
  have hpa := mem_of_sits h.valid ha
  have hpb := mem_of_sits h.valid hb
  obtain ⟨la, m, hla, hm, hla'⟩ := Session.whereIs_eq_some_iff.mp ha
  obtain ⟨lb, m', hlb, hm', hlb'⟩ := Session.whereIs_eq_some_iff.mp hb
  obtain rfl := Option.some.inj (hm.symm.trans hm')
  obtain ⟨placed, hplaced, rfl⟩ := Option.map_eq_some_iff.mp hm
  have hne : la ≠ lb := by
    rintro rfl
    have hwf := h.valid.graph
    exact hab ((InteractionGraph.nameOf_of_named?_eq_some hwf hla).symm.trans
      (InteractionGraph.nameOf_of_named?_eq_some hwf hlb))
  obtain ⟨swaps, hswaps⟩ :=
    Router.exists_swapsFor (g := s.graph) s.router h.connected hne hla' hlb' hpa hpb
  exact ⟨placed, swaps, Session.swapsBetween_eq_ok_iff.mpr ⟨la, lb, hla, hlb, hplaced, hswaps⟩⟩

theorem Ready.exists_approached (h : Ready s (i :: src)) : ∃ swaps s', Approached s i swaps s' := by
  cases i with
  | gate name params names =>
    match names with
    | [a, b] =>
      obtain ⟨placed, swaps, hswaps⟩ := h.exists_swapsBetween
      exact ⟨swaps, _, .pair name params hswaps⟩
    | [] | [_] | _ :: _ :: _ :: _ => exact ⟨[], s, .other rfl⟩
  | creg | measure | reset | barrier => exact ⟨[], s, .other rfl⟩

/-- Routing leaves nobody without a place. -/
theorem Ready.tail {swaps : List Swap} (h : Ready s (i :: src)) (happ : Approached s i swaps s') :
    Ready s' src where
  valid := (h.valid.change happ.change).1
  connected := by
    rw [(h.valid.change happ.change).2]
    exact h.connected
  sits j hj name hname := by
    obtain ⟨p, hp⟩ := h.sits j (List.mem_cons_of_mem i hj) name hname
    exact ⟨Swap.carry swaps p, happ.sits_iff.mpr ⟨p, hp, rfl⟩⟩
  apart c hc := h.apart c (by
    obtain ⟨j, hj, hjc⟩ := List.mem_filterMap.mp hc
    exact List.mem_filterMap.mpr ⟨j, List.mem_cons_of_mem i hj, hjc⟩)

theorem Ready.exists_emits (costs : CostModel) (h : Ready s src) :
    ∃ e s', Emits costs s src e s' := by
  induction src generalizing s with
  | nil => exact ⟨.empty, s, emits_nil.mpr ⟨rfl, rfl⟩⟩
  | cons i src ih =>
    obtain ⟨swaps, s₁, happ⟩ := h.exists_approached
    obtain ⟨j, hij⟩ : ∃ j, i.Related (Sits s₁) j := by
      refine Instruction.exists_related fun name hname => ?_
      obtain ⟨p, hp⟩ := h.sits i List.mem_cons_self name hname
      exact ⟨Swap.carry swaps p, happ.sits_iff.mpr ⟨p, hp, rfl⟩⟩
    obtain ⟨e', s', hrest⟩ := ih (h.tail happ)
    exact ⟨_, s', emits_cons.mpr ⟨swaps, j, s₁, e', happ, hij, hrest, rfl⟩⟩

/-- After collection and placement in a fresh session the second pass does not fail. -/
theorem exists_emit (costs : CostModel) {p : Program} {r : Registers} {t : Topology}
    {settings : MapperSettings} {m : Layout} {s₁ s₂ : Session} (hconn : t.Connected)
    (hcollect : Gives (collect p) (settings.session t) r s₁)
    (hplace : Gives Session.place s₁ m s₂) :
    ∃ out s₃, Gives (emit p r costs) s₂ out s₃ := by
  obtain ⟨rfl, src, hsrc, hapart, hnoted⟩ := noted_of_gives_collect hcollect
  obtain ⟨hvalid, rfl, hsits⟩ := placed_of_noted hnoted hplace
  have hready : Ready s₂ src :=
    { valid := hvalid
      connected := hconn
      sits := fun i hi name hname =>
        hsits name (List.mem_append_right _ (List.mem_flatMap.mpr ⟨i, hi, hname⟩))
      apart := hapart }
  obtain ⟨e, s₃, hemits⟩ := hready.exists_emits costs
  obtain ⟨initial, hinitial⟩ :=
    exists_forall₂ fun name hname => hsits name (List.mem_append_left _ hname)
  exact ⟨_, s₃, gives_emit_iff.mpr ⟨initial, src, e, hinitial, hsrc, hemits, rfl⟩⟩

/-! ## The criterion -/

theorem apart_iff : Apart src ↔ ∀ name params a b, .gate name params [a, b] ∈ src → a ≠ b := by
  constructor
  · intro h name params a b hgate
    exact h (a, b) (mem_meetings.mpr ⟨name, params, hgate⟩)
  · intro h ⟨a, b⟩ hc
    obtain ⟨name, params, hgate⟩ := mem_meetings.mp hc
    exact h name params a b hgate

theorem meetings_ne_nil_iff :
    meetings src ≠ [] ↔ ∃ name params a b, .gate name params [a, b] ∈ src := by
  constructor
  · intro h
    obtain ⟨⟨a, b⟩, hc⟩ := List.exists_mem_of_ne_nil _ h
    obtain ⟨name, params, hgate⟩ := mem_meetings.mp hc
    exact ⟨name, params, a, b, hgate⟩
  · intro ⟨name, params, a, b, hgate⟩
    exact List.ne_nil_of_mem (mem_meetings.mpr ⟨name, params, hgate⟩)

/-- A fresh session that has taken note of names knows these and no others. -/
theorem length_names_of_noted {names : List String} {pairs : List (String × String)} {t : Topology}
    {settings : MapperSettings} (h : Noted (settings.session t) names pairs s) :
    s.graph.names.length = names.toFinset.card := by
  rw [← List.toFinset_card_of_nodup h.wellFormed.named.nodup]
  congr 1
  ext name
  have hfresh : name ∉ (settings.session t).graph.names := List.not_mem_nil
  simp [h.names, hfresh]

theorem exists_place_iff {names : List String} {pairs : List (String × String)} {t : Topology}
    {settings : MapperSettings} (hconn : t.Connected)
    (h : Noted (settings.session t) names pairs s) :
    (∃ m s', Gives Session.place s m s') ↔
      1 ≤ names.toFinset.card ∧ names.toFinset.card ≤ t.size ∧
        (pairs ≠ [] ∨ settings.placement.allowIsolated) := by
  have hopen : s.placed = none := by rw [h.frame]; rfl
  have htopology : s.topology = t := by rw [h.frame]; rfl
  have hoptions : s.options = settings.placement := by rw [h.frame]; rfl
  have hpairs : s.graph.pairs ≠ [] ↔ pairs ≠ [] := by
    rw [h.pairs]
    exact or_iff_right fun hfresh => hfresh rfl
  rw [← htopology] at hconn
  have hplacement := Placement.exists_initialPlacement_iff s.options h.wellFormed hconn
  rw [length_names_of_noted h, htopology, hpairs, hoptions] at hplacement
  rw [← hplacement]
  constructor
  · intro ⟨m, s', hplace⟩
    have hm := ((gives_place_iff hopen).mp hplace).1
    rw [htopology, hoptions] at hm
    exact ⟨m, hm⟩
  · intro ⟨m, hm⟩
    rw [← htopology, ← hoptions] at hm
    exact ⟨m, _, (gives_place_iff hopen).mpr ⟨hm, rfl⟩⟩

/-- **When mapping succeeds** on a connected device: exactly if the source text is a program whose
operands can all be expanded and broadcast to a circuit `src`, no gate names one qubit twice, the
qubits that are declared or occur are one at least and no more than the device has, and some gate
acts on two qubits unless circuits without such gates are allowed. In particular the second pass
does not fail where collection and placement have succeeded in a fresh session. -/
theorem remap_succeeds_iff {t : Topology} (hconn : t.Connected) (settings : MapperSettings)
    (costs : CostModel) :
    (∀ source, (∃ out, remap source t settings costs = .ok out) ↔
      ∃ p src, Program.parse source = .ok p ∧ (Registers.ofProgram p).circuit p = .ok src ∧
        (∀ name params a b, .gate name params [a, b] ∈ src → a ≠ b) ∧
        1 ≤ ((Registers.ofProgram p).qubitNames ++ src.flatMap (·.qubits)).toFinset.card ∧
        ((Registers.ofProgram p).qubitNames ++ src.flatMap (·.qubits)).toFinset.card ≤ t.size ∧
        ((∃ name params a b, .gate name params [a, b] ∈ src) ∨ settings.placement.allowIsolated)) ∧
    ∀ p r m s₁ s₂, Gives (collect p) (settings.session t) r s₁ → Gives Session.place s₁ m s₂ →
      ∃ out s₃, Gives (emit p r costs) s₂ out s₃ := by
  refine ⟨fun source => ?_, fun p r m s₁ s₂ hcollect hplace =>
    exists_emit costs hconn hcollect hplace⟩
  simp only [← apart_iff, ← meetings_ne_nil_iff]
  constructor
  · intro ⟨out, hout⟩
    obtain ⟨p, r, s₁, m, s₂, s₃, hp, hcollect, hplace, -⟩ := remap_eq_ok_iff.mp hout
    obtain ⟨rfl, src, hsrc, hapart, hnoted⟩ := noted_of_gives_collect hcollect
    exact ⟨p, src, hp, hsrc, hapart, (exists_place_iff hconn hnoted).mp ⟨m, s₂, hplace⟩⟩
  · -- Collection and placement take up all of the conditions: the second pass has none of its own.
    intro ⟨p, src, hp, hsrc, hapart, hplacement⟩
    have hcollects := collects_program p
    rw [hsrc] at hcollects
    obtain ⟨s₁, hloop, hnoted⟩ :=
      hcollects.succeeds (s := settings.session t) rfl InteractionGraph.wellFormed_empty rfl hapart
    have hcollect := gives_collect_iff.mpr ⟨hloop, rfl⟩
    obtain ⟨m, s₂, hplace⟩ := (exists_place_iff hconn hnoted).mpr hplacement
    obtain ⟨out, s₃, hemit⟩ := exists_emit costs hconn hcollect hplace
    exact ⟨out, remap_eq_ok_iff.mpr ⟨p, _, s₁, m, s₂, s₃, hp, hcollect, hplace, hemit⟩⟩

/-- A line of three is connected, and has room for a register of two and a name that no register
declares. -/
theorem remap_succeeds_line :
    (Topology.linear 3).Connected ∧
      ∃ out, remap "OPENQASM 2.0; qreg q[2]; cx q[0],r;" (.linear 3) {} {} = .ok out := by
  have hconn : (Topology.linear 3).Connected := by decide +kernel
  let gate : GateCall := ⟨"cx", none, [⟨"q", some 0⟩, ⟨"r", none⟩], 1⟩
  have hp : (Program.parse "OPENQASM 2.0; qreg q[2]; cx q[0],r;").toOption =
      some ⟨"2.0", [.qreg ⟨"q", 2⟩, .gate gate]⟩ := by
    decide +kernel
  have hsrc :
      ((Registers.mk [⟨"q", 2⟩] []).circuit ⟨"2.0", [.qreg ⟨"q", 2⟩, .gate gate]⟩).toOption =
      some [.gate "cx" none ["q[0]", "r"]] := by
    decide +kernel
  refine ⟨hconn, ((remap_succeeds_iff hconn {} {}).1 _).mpr
    ⟨_, _, toOption_eq_some_iff.mp hp, toOption_eq_some_iff.mp hsrc, ?_, ?_, ?_, Or.inr rfl⟩⟩
  · intro name params a b hgate
    simp only [List.mem_singleton, Instruction.gate.injEq, List.cons.injEq, and_true] at hgate
    rw [hgate.2.2.1, hgate.2.2.2]
    decide
  · decide +kernel
  · decide +kernel

end Pass

end QubitRouting
