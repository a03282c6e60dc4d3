import QubitRouting.Mapping.Pass
import QubitRouting.Proofs.Session.Reachable

/-!
# What the second pass writes

The second pass goes through the statements of a program, but all it does depends on the expanded
circuit (`Registers.circuit`): instruction by instruction it brings the two qubits of a gate
together (`Pass.Approached`) and then writes the instruction with every name replaced by its present
place (`Instruction.Related`). `gives_emitInstruction_iff` says so for one instruction, exactly, and
`gives_emit_iff` for the pass.
-/

set_option autoImplicit false

namespace QubitRouting

/-- The circuit that a program writes, operand by operand. -/
def Registers.circuit (r : Registers) (p : Program) :
    Except RegisterError (List (Instruction String)) :=
  return (← p.statements.mapM r.instructions).flatten

namespace Instruction

/-- The qubits of an instruction. -/
def qubits {Q : Type} : Instruction Q → List Q
  | creg _ => []
  | gate _ _ qs => qs
  | measure q _ => [q]
  | reset q => [q]
  | barrier qs => qs

/-- The two qubits of a gate on two qubits. -/
def pair? {Q : Type} : Instruction Q → Option (Q × Q)
  | gate _ _ [a, b] => some (a, b)
  | _ => none

theorem pair?_eq_some_iff {Q : Type} {i : Instruction Q} {a b : Q} :
    i.pair? = some (a, b) ↔ ∃ name params, i = .gate name params [a, b] := by
  constructor
  · intro h
    unfold pair? at h
    split at h
    · obtain ⟨rfl, rfl⟩ := Prod.mk.inj (Option.some.inj h)
      exact ⟨_, _, rfl⟩
    · cases h
  · intro ⟨name, params, h⟩
    rw [h]
    rfl

/-- What an instruction costs. -/
def cost {Q : Type} (costs : CostModel) : Instruction Q → Nat
  | gate name _ qs => costs.gateCost name qs.length
  | _ => 0

/-- The same instruction on other qubits, which stand in relation `R` to those of the first. -/
inductive Related {Q Q' : Type} (R : Q → Q' → Prop) : Instruction Q → Instruction Q' → Prop where
  | creg (decl : RegisterDecl) : Related R (.creg decl) (.creg decl)
  | gate (name : String) (params : Option String) {qs : List Q} {qs' : List Q'}
      (h : List.Forall₂ R qs qs') : Related R (.gate name params qs) (.gate name params qs')
  | measure {q : Q} {q' : Q'} (bit : String) (h : R q q') :
      Related R (.measure q bit) (.measure q' bit)
  | reset {q : Q} {q' : Q'} (h : R q q') : Related R (.reset q) (.reset q')
  | barrier {qs : List Q} {qs' : List Q'} (h : List.Forall₂ R qs qs') :
      Related R (.barrier qs) (.barrier qs')

section

variable {Q Q' : Type} {R : Q → Q' → Prop} {j : Instruction Q'}

theorem related_creg_iff {decl : RegisterDecl} :
    Related R (.creg decl) j ↔ ∃ d, d = decl ∧ j = .creg d := by
  constructor
  · intro h
    cases h
    exact ⟨decl, rfl, rfl⟩
  · rintro ⟨_, rfl, rfl⟩
    exact .creg _

theorem related_gate_iff {name : String} {params : Option String} {qs : List Q} :
    Related R (.gate name params qs) j ↔
      ∃ qs', List.Forall₂ R qs qs' ∧ j = .gate name params qs' := by
  constructor
  · intro h
    cases h with
    | gate _ _ hqs => exact ⟨_, hqs, rfl⟩
  · rintro ⟨_, hqs, rfl⟩
    exact .gate name params hqs

theorem related_measure_iff {q : Q} {bit : String} :
    Related R (.measure q bit) j ↔ ∃ q', R q q' ∧ j = .measure q' bit := by
  constructor
  · intro h
    cases h with
    | measure _ hq => exact ⟨_, hq, rfl⟩
  · rintro ⟨_, hq, rfl⟩
    exact .measure bit hq

theorem related_reset_iff {q : Q} : Related R (.reset q) j ↔ ∃ q', R q q' ∧ j = .reset q' := by
  constructor
  · intro h
    cases h with
    | reset hq => exact ⟨_, hq, rfl⟩
  · rintro ⟨_, hq, rfl⟩
    exact .reset hq

theorem related_barrier_iff {qs : List Q} :
    Related R (.barrier qs) j ↔ ∃ qs', List.Forall₂ R qs qs' ∧ j = .barrier qs' := by
  constructor
  · intro h
    cases h with
    | barrier hqs => exact ⟨_, hqs, rfl⟩
  · rintro ⟨_, hqs, rfl⟩
    exact .barrier hqs

end

theorem Related.qubits {Q Q' : Type} {R : Q → Q' → Prop} {i : Instruction Q} {j : Instruction Q'}
    (h : Related R i j) : List.Forall₂ R i.qubits j.qubits := by
  cases h with
  | creg => exact .nil
  | gate _ _ h => exact h
  | measure _ h => exact .cons h .nil
  | reset h => exact .cons h .nil
  | barrier h => exact h

theorem Related.pair {Q Q' : Type} {R : Q → Q' → Prop} {i : Instruction Q} {j : Instruction Q'}
    {a' b' : Q'} (h : Related R i j) (hj : j.pair? = some (a', b')) :
    ∃ a b, i.pair? = some (a, b) ∧ R a a' ∧ R b b' := by
  cases h with
  | @gate name params qs qs' h =>
    match qs, qs', h with
    | [a, b], [_, _], .cons ha (.cons hb .nil) =>
      obtain ⟨rfl, rfl⟩ := Prod.mk.inj (Option.some.inj hj)
      exact ⟨a, b, rfl, ha, hb⟩
    | [], [], _ | [_], [_], _ | _ :: _ :: _ :: _, _ :: _ :: _ :: _, _ => cases hj
  | creg | measure | reset | barrier => cases hj

end Instruction

namespace Pass

variable {costs : CostModel} {r : Registers} {s s' : Session}

/-! ## Single steps -/

theorem gives_onSession {α : Type} {op : SessionM α} {a : α} :
    Gives (onSession op) s a s' ↔ Gives op s a s' :=
  gives_adapt

theorem gives_onRegisters {α : Type} {result : Except RegisterError α} {a : α} :
    Gives (onRegisters result) s a s' ↔ result = .ok a ∧ s' = s := by
  rw [onRegisters, gives_adapt, gives_liftM]

theorem gives_resolve {name : String} {q : PhysicalQubit} :
    Gives (resolve name) s q s' ↔ s.whereIs name = some q ∧ s' = s := by
  rw [resolve, gives_onSession, Session.gives_resolve]

/-- A qubit name sits on this qubit of the device. -/
def Sits (s : Session) (name : String) (q : PhysicalQubit) : Prop := s.whereIs name = some q

theorem gives_mapM_resolve {names : List String} {qs : List PhysicalQubit} :
    Gives (names.mapM resolve) s qs s' ↔ List.Forall₂ (Sits s) names qs ∧ s' = s := by
  induction names generalizing qs with
  | nil =>
    rw [gives_mapM_nil, List.forall₂_nil_left_iff]
  | cons name names ih =>
    rw [gives_mapM_cons, List.forall₂_cons_left_iff]
    constructor
    · intro ⟨q, s₁, qs', hq, hqs, heq⟩
      obtain ⟨hq, rfl⟩ := gives_resolve.mp hq
      obtain ⟨hqs, rfl⟩ := ih.mp hqs
      exact ⟨⟨q, qs', hq, hqs, heq⟩, rfl⟩
    · intro ⟨⟨q, qs', hq, hqs, heq⟩, hs⟩
      exact ⟨q, s, qs', gives_resolve.mpr ⟨hq, rfl⟩, ih.mpr ⟨hqs, hs⟩, heq⟩

/-! ## One instruction -/

/-- The swaps in front of an instruction, and the session after them. -/
inductive Approached (s : Session) : Instruction String → List Swap → Session → Prop where
  | pair (name : String) (params : Option String) {a b : String} {placed : Placed}
      {swaps : List Swap} (h : s.swapsBetween a b = .ok (placed, swaps)) :
      Approached s (.gate name params [a, b]) swaps (s.routed placed swaps)
  | other {i : Instruction String} (h : i.pair? = none) : Approached s i [] s

theorem gives_routeAdjacent {a b : String} {swaps : List Swap} :
    Gives (Session.routeAdjacent a b) s swaps s' ↔
      ∃ placed, s.swapsBetween a b = .ok (placed, swaps) ∧ s' = s.routed placed swaps := by
  rw [Gives, Session.routeAdjacent_run]
  cases hr : s.swapsBetween a b with
  | error e =>
    constructor
    · intro h
      cases h
    · rintro ⟨_, h, _⟩
      cases h
  | ok c =>
    obtain ⟨placed, swaps'⟩ := c
    constructor
    · intro h
      cases h
      exact ⟨placed, rfl, rfl⟩
    · rintro ⟨placed', h, hs⟩
      cases h
      exact hs ▸ rfl

theorem approached_gate_iff {name : String} {params : Option String} {a b : String}
    {swaps : List Swap} :
    Approached s (.gate name params [a, b]) swaps s' ↔
      ∃ placed, s.swapsBetween a b = .ok (placed, swaps) ∧ s' = s.routed placed swaps := by
  constructor
  · intro h
    cases h with
    | pair _ _ hswaps => exact ⟨_, hswaps, rfl⟩
    | other hnone => cases hnone
  · rintro ⟨placed, hswaps, rfl⟩
    exact .pair name params hswaps

theorem approached_other_iff {i : Instruction String} (hi : i.pair? = none) {swaps : List Swap} :
    Approached s i swaps s' ↔ swaps = [] ∧ s' = s := by
  constructor
  · intro h
    cases h with
    | pair _ _ hswaps => cases hi
    | other _ => exact ⟨rfl, rfl⟩
  · rintro ⟨rfl, rfl⟩
    exact .other hi

theorem Approached.layout?_eq {i : Instruction String} {swaps : List Swap}
    (h : Approached s i swaps s') : s'.layout? = s.layout?.map (·.swaps swaps) := by
  cases h with
  | pair name params hswaps =>
    obtain ⟨_, _, _, _, hplaced, _⟩ := Session.swapsBetween_eq_ok_iff.mp hswaps
    simp only [Session.layout?, Session.routed, hplaced, Option.map_some]
  | other hi =>
    cases s.layout? with
    | none => rfl
    | some m => rfl

theorem Approached.graph_eq {i : Instruction String} {swaps : List Swap}
    (h : Approached s i swaps s') : s'.graph = s.graph := by
  cases h with
  | pair name params hswaps => rfl
  | other hi => rfl

theorem Approached.change {i : Instruction String} {swaps : List Swap}
    (h : Approached s i swaps s') : s.Change s' := by
  cases h with
  | pair name params hswaps => exact ⟨_, _, .route hswaps⟩
  | other hi => exact ⟨.place, none, .nothing _⟩

/-- The swaps carry every qubit along. -/
theorem Approached.sits_iff {i : Instruction String} {swaps : List Swap} {name : String}
    {q : PhysicalQubit} (h : Approached s i swaps s') :
    Sits s' name q ↔ ∃ p, Sits s name p ∧ Swap.carry swaps p = q := by
  unfold Sits
  simp only [Session.whereIs_eq_some_iff, h.graph_eq, h.layout?_eq]
  constructor
  · intro ⟨l, m', hl, hm', hq⟩
    obtain ⟨m, hm, rfl⟩ := Option.map_eq_some_iff.mp hm'
    obtain ⟨p, hp, hpq⟩ := Layout.physical_swaps_eq_some_iff.mp hq
    exact ⟨p, ⟨l, m, hl, hm, hp⟩, hpq⟩
  · intro ⟨p, ⟨l, m, hl, hm, hp⟩, hpq⟩
    refine ⟨l, m.swaps swaps, hl, Option.map_eq_some_iff.mpr ⟨m, hm, rfl⟩, ?_⟩
    exact Layout.physical_swaps_eq_some_iff.mpr ⟨p, hp, hpq⟩

/-! ## Names and places -/

/-- No two names share a place. -/
theorem eq_of_sits (hs : s.Valid) {a b : String} {q : PhysicalQubit} (ha : Sits s a q)
    (hb : Sits s b q) : a = b := by
  obtain ⟨la, m, hla, hm, hpa⟩ := Session.whereIs_eq_some_iff.mp ha
  obtain ⟨lb, m', hlb, hm', hpb⟩ := Session.whereIs_eq_some_iff.mp hb
  obtain rfl := Option.some.inj (hm.symm.trans hm')
  obtain rfl := Layout.physical_inj hpa hpb
  rw [← InteractionGraph.nameOf_of_named?_eq_some hs.graph hla,
    InteractionGraph.nameOf_of_named?_eq_some hs.graph hlb]

/-- The place of a name is that of its qubit in the present layout. -/
theorem physical_of_sits {placed : Placed} {name : String} {l : LogicalQubit} {p : PhysicalQubit}
    (hplaced : s.placed = some placed) (hl : s.graph.named? name = some l) (hp : Sits s name p) :
    placed.current.physical l = some p := by
  obtain ⟨l', m, hl', hm, hp⟩ := Session.whereIs_eq_some_iff.mp hp
  obtain rfl := Option.some.inj (hl.symm.trans hl')
  rw [Session.layout?, hplaced] at hm
  obtain rfl := Option.some.inj hm
  exact hp

theorem sits_nameOf (hs : s.Valid) {m : Layout} (hm : s.layout? = some m) {l : LogicalQubit}
    {q : PhysicalQubit} (hq : m.physical l = some q) : Sits s (s.graph.nameOf l) q := by
  have hl := (hs.fits m hm l q hq).1
  exact Session.whereIs_eq_some_iff.mpr
    ⟨l, m, InteractionGraph.named?_nameOf hs.graph hl, hm, hq⟩

/-! ## What is written -/

/-- What is written for an instruction once its qubits have been brought together. -/
def written (costs : CostModel) (swaps : List Swap) (j : Instruction PhysicalQubit) : Emission :=
  ⟨swaps.map .ofSwap ++ [j], .ofNat (swaps.length * costs.swap) + .ofNat (j.cost costs)⟩

theorem written_nil (j : Instruction PhysicalQubit) :
    written costs [] j = ⟨[j], .ofNat (j.cost costs)⟩ := by
  simp [written]

theorem gives_approach {name : String} {params : Option String} {names : List String}
    {e : Emission} :
    Gives (approach costs names) s e s' ↔
      ∃ swaps, Approached s (.gate name params names) swaps s' ∧ e = .ofSwaps costs swaps := by
  have hpair (a b : String) : Gives (approach costs [a, b]) s e s' ↔
      ∃ swaps, Approached s (.gate name params [a, b]) swaps s' ∧ e = .ofSwaps costs swaps := by
    rw [approach, gives_bind]
    constructor
    · intro ⟨swaps, s₁, hroute, he⟩
      obtain ⟨rfl, rfl⟩ := gives_pure.mp he
      obtain ⟨placed, hswaps, rfl⟩ := gives_routeAdjacent.mp (gives_onSession.mp hroute)
      exact ⟨swaps, .pair name params hswaps, rfl⟩
    · intro ⟨swaps, happ, he⟩
      cases happ with
      | pair _ _ hswaps =>
        exact ⟨swaps, _, gives_onSession.mpr (gives_routeAdjacent.mpr ⟨_, hswaps, rfl⟩),
          gives_pure.mpr ⟨he, rfl⟩⟩
      | other h => exact absurd h (by simp [Instruction.pair?])
  have hother (hnone : (Instruction.gate name params names).pair? = none)
      (happroach : approach costs names = pure .empty) : Gives (approach costs names) s e s' ↔
      ∃ swaps, Approached s (.gate name params names) swaps s' ∧ e = .ofSwaps costs swaps := by
    rw [happroach, gives_pure]
    constructor
    · intro ⟨he, hs⟩
      rw [he, hs]
      exact ⟨[], .other hnone, by simp [Emission.ofSwaps, Emission.empty]⟩
    · intro ⟨swaps, happ, he⟩
      cases happ with
      | pair _ _ hswaps => exact absurd hnone (by simp [Instruction.pair?])
      | other _ => exact ⟨by simp [he, Emission.ofSwaps, Emission.empty], rfl⟩
  match names with
  | [] => exact hother rfl rfl
  | [_] => exact hother rfl rfl
  | [a, b] => exact hpair a b
  | _ :: _ :: _ :: _ => exact hother rfl rfl

/-- An instruction that brings no qubits together is written where the session stands. -/
theorem gives_free_iff {α : Type} {x : PassM α} {R : α → Prop}
    {build : α → Instruction PhysicalQubit}
    {i : Instruction String} {e : Emission} (hx : ∀ {a s₁}, Gives x s a s₁ ↔ R a ∧ s₁ = s)
    (hpair : i.pair? = none) (hcost : ∀ a, (build a).cost costs = 0)
    (hrel : ∀ {j}, i.Related (Sits s) j ↔ ∃ a, R a ∧ j = build a) :
    Gives (do return .free [build (← x)]) s e s' ↔
      ∃ swaps j, Approached s i swaps s' ∧ i.Related (Sits s') j ∧ e = written costs swaps j := by
  have hwritten (a : α) : Emission.free [build a] = written costs [] (build a) := by
    rw [written_nil, hcost, Emission.free]
    rfl
  rw [gives_bind]
  constructor
  · rintro ⟨a, s₁, hrun, h⟩
    obtain ⟨ha, rfl⟩ := hx.mp hrun
    obtain ⟨rfl, rfl⟩ := gives_pure.mp h
    exact ⟨[], build a, .other hpair, hrel.mpr ⟨a, ha, rfl⟩, hwritten a⟩
  · rintro ⟨swaps, j, happ, hij, he⟩
    cases happ with
    | pair => cases hpair
    | other =>
      obtain ⟨a, ha, rfl⟩ := hrel.mp hij
      exact ⟨a, s, hx.mpr ⟨ha, rfl⟩, gives_pure.mpr ⟨he.trans (hwritten a).symm, rfl⟩⟩

/-- **One instruction**: swaps that bring its qubits together, then itself on the present places. -/
theorem gives_emitInstruction_iff {i : Instruction String} {e : Emission} :
    Gives (emitInstruction costs i) s e s' ↔
      ∃ swaps j, Approached s i swaps s' ∧ i.Related (Sits s') j ∧ e = written costs swaps j := by
  cases i with
  | creg decl =>
    have hdecl : emitInstruction costs (.creg decl) =
        (do return .free [.creg (← (pure decl : PassM RegisterDecl))]) := rfl
    rw [hdecl]
    exact gives_free_iff gives_pure rfl (fun _ => rfl) Instruction.related_creg_iff
  | gate name params names =>
    rw [emitInstruction, gives_bind]
    constructor
    · intro ⟨pre, s₁, hpre, h⟩
      obtain ⟨qs, s₂, hqs, h⟩ := gives_bind.mp h
      obtain ⟨rfl, rfl⟩ := gives_pure.mp h
      obtain ⟨hqs, rfl⟩ := gives_mapM_resolve.mp hqs
      obtain ⟨swaps, happ, rfl⟩ := gives_approach.mp hpre
      refine ⟨swaps, .gate name params qs, happ, .gate name params hqs, ?_⟩
      rw [hqs.length_eq]
      rfl
    · intro ⟨swaps, j, happ, hrel, he⟩
      cases hrel with
      | gate _ _ hqs =>
        refine ⟨.ofSwaps costs swaps, s', gives_approach.mpr ⟨swaps, happ, rfl⟩, ?_⟩
        refine gives_bind.mpr ⟨_, s', gives_mapM_resolve.mpr ⟨hqs, rfl⟩, gives_pure.mpr ⟨?_, rfl⟩⟩
        rw [he, hqs.length_eq]
        rfl
  | measure qubit bit =>
    rw [emitInstruction]
    exact gives_free_iff gives_resolve rfl (fun _ => rfl) Instruction.related_measure_iff
  | reset qubit =>
    rw [emitInstruction]
    exact gives_free_iff gives_resolve rfl (fun _ => rfl) Instruction.related_reset_iff
  | barrier names =>
    rw [emitInstruction]
    exact gives_free_iff gives_mapM_resolve rfl (fun _ => rfl) Instruction.related_barrier_iff

/-! ## Many instructions -/

theorem join_nil : Emission.join [] = .empty := rfl

theorem join_cons (e : Emission) (es : List Emission) :
    Emission.join (e :: es) = e ++ .join es := rfl

theorem append_def (e e' : Emission) :
    e ++ e' = ⟨e.instructions ++ e'.instructions, e.cost + e'.cost⟩ := rfl

theorem join_append (es es' : List Emission) :
    Emission.join (es ++ es') = .join es ++ .join es' := by
  induction es with
  | nil => simp [join_nil, append_def, Emission.empty]
  | cons e es ih =>
    rw [List.cons_append, join_cons, join_cons, ih]
    simp [append_def, UInt64.add_assoc]

/-- The pieces written for instructions, put together. -/
def Emits (costs : CostModel) (s : Session) (is : List (Instruction String)) (e : Emission)
    (s' : Session) : Prop :=
  ∃ es, Gives (is.mapM (emitInstruction costs)) s es s' ∧ e = .join es

theorem emits_nil {e : Emission} : Emits costs s [] e s' ↔ e = .empty ∧ s' = s := by
  constructor
  · intro ⟨es, hes, he⟩
    obtain ⟨rfl, rfl⟩ := gives_mapM_nil.mp hes
    exact ⟨he, rfl⟩
  · intro ⟨he, hs⟩
    exact ⟨[], gives_mapM_nil.mpr ⟨rfl, hs⟩, he⟩

theorem emits_cons {i : Instruction String} {is : List (Instruction String)} {e : Emission} :
    Emits costs s (i :: is) e s' ↔
      ∃ swaps j s₁ e', Approached s i swaps s₁ ∧ i.Related (Sits s₁) j ∧ Emits costs s₁ is e' s' ∧
        e = written costs swaps j ++ e' := by
  constructor
  · intro ⟨es, hes, he⟩
    obtain ⟨e₁, s₁, es', he₁, hes', rfl⟩ := gives_mapM_cons.mp hes
    obtain ⟨swaps, j, happ, hrel, rfl⟩ := gives_emitInstruction_iff.mp he₁
    exact ⟨swaps, j, s₁, .join es', happ, hrel, ⟨es', hes', rfl⟩, he⟩
  · intro ⟨swaps, j, s₁, e', happ, hrel, ⟨es', hes', he'⟩, he⟩
    refine ⟨written costs swaps j :: es', gives_mapM_cons.mpr ⟨_, s₁, es', ?_, hes', rfl⟩, ?_⟩
    · exact gives_emitInstruction_iff.mpr ⟨swaps, j, happ, hrel, rfl⟩
    · rw [he, he', join_cons]

theorem emits_append {is is' : List (Instruction String)} {e : Emission} :
    Emits costs s (is ++ is') e s' ↔
      ∃ e₁ s₁ e₂, Emits costs s is e₁ s₁ ∧ Emits costs s₁ is' e₂ s' ∧ e = e₁ ++ e₂ := by
  constructor
  · intro ⟨es, hes, he⟩
    obtain ⟨es₁, s₁, es₂, h₁, h₂, rfl⟩ := gives_mapM_append.mp hes
    exact ⟨.join es₁, s₁, .join es₂, ⟨es₁, h₁, rfl⟩, ⟨es₂, h₂, rfl⟩, he.trans (join_append es₁ es₂)⟩
  · intro ⟨e₁, s₁, e₂, ⟨es₁, h₁, he₁⟩, ⟨es₂, h₂, he₂⟩, he⟩
    refine ⟨es₁ ++ es₂, gives_mapM_append.mpr ⟨es₁, s₁, es₂, h₁, h₂, rfl⟩, ?_⟩
    rw [he, he₁, he₂, join_append]

/-- The pass keeps the graph and the device, and a placed session placed. -/
theorem Emits.session {src : List (Instruction String)} {e : Emission} (hs : s.Valid)
    (h : Emits costs s src e s') :
    s'.Valid ∧ s'.graph = s.graph ∧ s'.topology = s.topology ∧
      s'.layout?.isSome = s.layout?.isSome := by
  induction src generalizing s e with
  | nil =>
    obtain ⟨-, rfl⟩ := emits_nil.mp h
    exact ⟨hs, rfl, rfl, rfl⟩
  | cons i src ih =>
    obtain ⟨swaps, j, s₁, e', happ, hij, hrest, -⟩ := emits_cons.mp h
    obtain ⟨hs₁, htopology₁⟩ := hs.change happ.change
    obtain ⟨hs', hgraph, htopology, hlayout⟩ := ih hs₁ hrest
    refine ⟨hs', hgraph.trans happ.graph_eq, htopology.trans htopology₁, hlayout.trans ?_⟩
    rw [happ.layout?_eq, Option.isSome_map]

theorem forall₂_of_append {α β : Type} {R : α → β → Prop} {xs xs' : List α} {ys : List β}
    (h : List.Forall₂ R (xs ++ xs') ys) :
    ∃ zs zs', List.Forall₂ R xs zs ∧ List.Forall₂ R xs' zs' ∧ ys = zs ++ zs' :=
  ⟨_, _, (List.forall₂_take_append _ _ _ h.flip).flip, (List.forall₂_drop_append _ _ _ h.flip).flip,
    (List.take_append_drop _ ys).symm⟩

theorem forall₂_of_flatten {α β : Type} {R : α → β → Prop} {xss : List (List α)} {ys : List β}
    (h : List.Forall₂ R xss.flatten ys) :
    ∃ yss, List.Forall₂ (List.Forall₂ R) xss yss ∧ ys = yss.flatten := by
  induction xss generalizing ys with
  | nil => exact ⟨[], .nil, List.forall₂_nil_left_iff.mp h⟩
  | cons xs xss ih =>
    rw [List.flatten_cons] at h
    obtain ⟨zs, zs', hfirst, hrest, rfl⟩ := forall₂_of_append h
    obtain ⟨yss, hyss, rfl⟩ := ih hrest
    exact ⟨zs :: yss, .cons hfirst hyss, rfl⟩

/-- The places of the operands of a barrier, each expanded when its turn has come. -/
theorem gives_mapM_expand_resolve {qubits : List Operand} {places : List (List PhysicalQubit)} :
    Gives (qubits.mapM fun o => do (← onRegisters (r.expandQubits o)).mapM resolve) s places s' ↔
      (∃ names, qubits.mapM r.expandQubits = .ok names ∧
        List.Forall₂ (List.Forall₂ (Sits s)) names places) ∧ s' = s := by
  simp only [mapM_eq_ok_iff]
  induction qubits generalizing places with
  | nil =>
    rw [gives_mapM_nil]
    refine and_congr_left fun _ =>
      ⟨fun h => ⟨[], .nil, h ▸ .nil⟩, fun ⟨names, hnames, hplaces⟩ => ?_⟩
    obtain rfl := List.forall₂_nil_left_iff.mp hnames
    exact List.forall₂_nil_left_iff.mp hplaces
  | cons o qubits ih =>
    rw [gives_mapM_cons]
    constructor
    · intro ⟨qs, s₁, places', hqs, hplaces, heq⟩
      obtain ⟨names, s₂, hexpand, hresolve⟩ := gives_bind.mp hqs
      obtain ⟨hnames, hs₂⟩ := gives_onRegisters.mp hexpand
      obtain ⟨hsits, hs₁⟩ := gives_mapM_resolve.mp hresolve
      subst hs₁ hs₂
      obtain ⟨⟨names', hnames', hrest⟩, hs⟩ := ih.mp hplaces
      exact ⟨⟨names :: names', .cons hnames hnames', heq ▸ .cons hsits hrest⟩, hs⟩
    · intro ⟨⟨namess, hnamess, hplaces⟩, hs⟩
      obtain ⟨names, names', hnames, hnames', rfl⟩ := List.forall₂_cons_left_iff.mp hnamess
      obtain ⟨qs, places', hqs, hplaces', rfl⟩ := List.forall₂_cons_left_iff.mp hplaces
      refine ⟨qs, s, places', gives_bind.mpr ⟨names, s, ?_, ?_⟩, ?_, rfl⟩
      · exact gives_onRegisters.mpr ⟨hnames, rfl⟩
      · exact gives_mapM_resolve.mpr ⟨hqs, rfl⟩
      · exact ih.mpr ⟨⟨names', hnames', hplaces'⟩, hs⟩

theorem instructions_barrier_eq_ok_iff {qubits : List Operand} {is : List (Instruction String)} :
    r.instructions (.barrier qubits) = .ok is ↔
      ∃ names, qubits.mapM r.expandQubits = .ok names ∧ is = [.barrier names.flatten] := by
  rw [Registers.instructions, bind_eq_ok_iff]
  exact ⟨fun ⟨names, hnames, h⟩ => ⟨names, hnames, (Except.ok.inj h).symm⟩,
    fun ⟨names, hnames, h⟩ => ⟨names, hnames, h ▸ rfl⟩⟩

/-- **One statement**: what is written is what is written for its instructions. -/
theorem gives_emitStatement_iff {st : Statement} {e : Emission} :
    Gives (emitStatement costs r st) s e s' ↔
      ∃ is, r.instructions st = .ok is ∧ Emits costs s is e s' := by
  have hplain (hst : emitStatement costs r st =
      (do return .join (← (← onRegisters (r.instructions st)).mapM (emitInstruction costs)))) :
      Gives (emitStatement costs r st) s e s' ↔
        ∃ is, r.instructions st = .ok is ∧ Emits costs s is e s' := by
    rw [hst, gives_bind]
    constructor
    · intro ⟨is, s₁, hget, h⟩
      obtain ⟨his, hs₁⟩ := gives_onRegisters.mp hget
      obtain ⟨es, s₂, hes, h⟩ := gives_bind.mp h
      obtain ⟨he, hs₂⟩ := gives_pure.mp h
      subst hs₁ hs₂
      exact ⟨is, his, es, hes, he⟩
    · intro ⟨is, his, es, hes, he⟩
      exact ⟨is, s, gives_onRegisters.mpr ⟨his, rfl⟩,
        gives_bind.mpr ⟨es, s', hes, gives_pure.mpr ⟨he, rfl⟩⟩⟩
  have hbarrier (places : List PhysicalQubit) :
      Emission.free [.barrier places] = written costs [] (.barrier places) ++ .empty := by
    rw [written_nil]
    rfl
  cases st with
  | barrier qubits =>
    rw [emitStatement, gives_bind]
    constructor
    · intro ⟨places, s₁, hplaces, h⟩
      obtain ⟨rfl, rfl⟩ := gives_pure.mp h
      obtain ⟨⟨names, hnames, hplaces⟩, rfl⟩ := gives_mapM_expand_resolve.mp hplaces
      refine ⟨_, instructions_barrier_eq_ok_iff.mpr ⟨names, hnames, rfl⟩, ?_⟩
      refine emits_cons.mpr ⟨[], .barrier places.flatten, s', .empty, .other rfl, ?_, ?_,
        hbarrier _⟩
      · exact .barrier (List.rel_flatten hplaces)
      · exact emits_nil.mpr ⟨rfl, rfl⟩
    · intro ⟨is, his, hemits⟩
      obtain ⟨names, hnames, rfl⟩ := instructions_barrier_eq_ok_iff.mp his
      obtain ⟨swaps, j, s₁, e', happ, hrel, hrest, he⟩ := emits_cons.mp hemits
      obtain ⟨rfl, rfl⟩ := emits_nil.mp hrest
      cases happ
      cases hrel with
      | barrier hqs =>
        obtain ⟨places, hplaces, rfl⟩ := forall₂_of_flatten hqs
        refine ⟨places, s, gives_mapM_expand_resolve.mpr ⟨⟨names, hnames, hplaces⟩, rfl⟩, ?_⟩
        exact gives_pure.mpr ⟨he.trans (hbarrier _).symm, rfl⟩
  | includes path => exact hplain rfl
  | qreg decl => exact hplain rfl
  | creg decl => exact hplain rfl
  | gate call => exact hplain rfl
  | measure qubit bit => exact hplain rfl
  | reset qubit => exact hplain rfl

/-! ## The pass -/

theorem circuit_eq_ok_iff {p : Program} {src : List (Instruction String)} :
    r.circuit p = .ok src ↔
      ∃ parts, List.Forall₂ (fun st is => r.instructions st = .ok is) p.statements parts ∧
        src = parts.flatten := by
  rw [Registers.circuit, bind_eq_ok_iff]
  simp only [mapM_eq_ok_iff]
  exact ⟨fun ⟨parts, hparts, h⟩ => ⟨parts, hparts, (Except.ok.inj h).symm⟩,
    fun ⟨parts, hparts, h⟩ => ⟨parts, hparts, h ▸ rfl⟩⟩

theorem gives_emitStatements_iff {sts : List Statement} {e : Emission} :
    (∃ es, Gives (sts.mapM (emitStatement costs r)) s es s' ∧ e = .join es) ↔
      ∃ parts, List.Forall₂ (fun st is => r.instructions st = .ok is) sts parts ∧
        Emits costs s parts.flatten e s' := by
  induction sts generalizing s e with
  | nil =>
    constructor
    · intro ⟨es, hes, he⟩
      obtain ⟨rfl, rfl⟩ := gives_mapM_nil.mp hes
      exact ⟨[], .nil, emits_nil.mpr ⟨he, rfl⟩⟩
    · intro ⟨parts, hparts, hemits⟩
      obtain rfl := List.forall₂_nil_left_iff.mp hparts
      obtain ⟨rfl, rfl⟩ := emits_nil.mp hemits
      exact ⟨[], gives_mapM_nil.mpr ⟨rfl, rfl⟩, rfl⟩
  | cons st sts ih =>
    constructor
    · intro ⟨es, hes, he⟩
      obtain ⟨e₁, s₁, es', he₁, hes', rfl⟩ := gives_mapM_cons.mp hes
      obtain ⟨is, his, hemits⟩ := gives_emitStatement_iff.mp he₁
      obtain ⟨parts, hparts, hrest⟩ := ih.mp ⟨es', hes', rfl⟩
      exact ⟨is :: parts, .cons his hparts,
        emits_append.mpr ⟨e₁, s₁, .join es', hemits, hrest, he.trans (join_cons e₁ es')⟩⟩
    · intro ⟨parts, hparts, hemits⟩
      obtain ⟨is, parts', his, hparts', rfl⟩ := List.forall₂_cons_left_iff.mp hparts
      obtain ⟨e₁, s₁, e₂, h₁, h₂, he⟩ := emits_append.mp hemits
      obtain ⟨es', hes', he₂⟩ := ih.mpr ⟨parts', hparts', h₂⟩
      refine ⟨e₁ :: es', gives_mapM_cons.mpr ⟨e₁, s₁, es', ?_, hes', rfl⟩, ?_⟩
      · exact gives_emitStatement_iff.mpr ⟨is, his, h₁⟩
      · rw [he, he₂, join_cons]

/-- What the second pass returns for the pieces that it has written. -/
def mapped (p : Program) (initial : List PhysicalQubit) (e : Emission) (s' : Session) : Mapped where
  circuit :=
    { version := p.version
      includes := p.includes
      size := registerSize s'.topology
      initial
      instructions := e.instructions }
  report := ⟨s'.metrics, e.cost⟩

/-- **The second pass**: the places of the declared qubits, then the circuit, instruction by
instruction. -/
theorem gives_emit_iff {p : Program} {out : Mapped} :
    Gives (emit p r costs) s out s' ↔
      ∃ initial src e, List.Forall₂ (Sits s) r.qubitNames initial ∧ r.circuit p = .ok src ∧
        Emits costs s src e s' ∧ out = mapped p initial e s' := by
  rw [emit, gives_bind]
  constructor
  · intro ⟨initial, s₁, hinitial, h⟩
    obtain ⟨hinitial, rfl⟩ := gives_mapM_resolve.mp hinitial
    obtain ⟨es, s₂, hes, h⟩ := gives_bind.mp h
    obtain ⟨s₃, s₄, hget, h⟩ := gives_bind.mp h
    obtain ⟨rfl, rfl⟩ := gives_get.mp hget
    obtain ⟨rfl, rfl⟩ := gives_pure.mp h
    obtain ⟨parts, hparts, hemits⟩ := gives_emitStatements_iff.mp ⟨es, hes, rfl⟩
    exact ⟨initial, parts.flatten, .join es, hinitial, circuit_eq_ok_iff.mpr ⟨parts, hparts, rfl⟩,
      hemits, rfl⟩
  · intro ⟨initial, src, e, hinitial, hsrc, hemits, hout⟩
    obtain ⟨parts, hparts, rfl⟩ := circuit_eq_ok_iff.mp hsrc
    obtain ⟨es, hes, rfl⟩ := gives_emitStatements_iff.mpr ⟨parts, hparts, hemits⟩
    refine ⟨initial, s, gives_mapM_resolve.mpr ⟨hinitial, rfl⟩, gives_bind.mpr ⟨es, s', hes, ?_⟩⟩
    exact gives_bind.mpr ⟨s', s', gives_get.mpr ⟨rfl, rfl⟩, gives_pure.mpr ⟨hout, rfl⟩⟩

end Pass

end QubitRouting
