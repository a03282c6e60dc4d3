import QubitRouting.Proofs.Interaction.Exchange
import QubitRouting.Proofs.Mapping.Validity
import QubitRouting.Topology.Presets

/-!
# Gates with their operands exchanged

Placement does not depend on the order of the two operands of a gate. Two programs that differ in
nothing else make the same requests in the first pass, up to the order of the two names in a meeting
(`Registers.requests_exchanged`). As long as the qubits have been declared before, that order has no
part in the numbering of the qubits, so both graphs are the same but for the order in which an
interaction writes its two qubits.
-/

set_option autoImplicit false

namespace QubitRouting

open InteractionGraph (Request)

/-! ## Programs -/

namespace Statement

def isGate : Statement → Bool
  | gate _ => true
  | _ => false

/-- The operands that name qubits. -/
def qubitOperands : Statement → List Operand
  | gate call => call.operands
  | measure qubit _ => [qubit]
  | reset qubit => [qubit]
  | barrier qubits => qubits
  | includes _ | qreg _ | creg _ => []

/-- The second statement is the first one, or the same gate with its two operands exchanged. -/
inductive Exchanged : Statement → Statement → Prop where
  | same (st : Statement) : Exchanged st st
  | gate (name : String) (params : Option String) (a b : Operand) (line : Nat) :
      Exchanged (.gate ⟨name, params, [a, b], line⟩) (.gate ⟨name, params, [b, a], line⟩)

variable {sts sts' : List Statement}

/-- What is not taken from gates is taken from both programs. -/
theorem filterMap_exchanged {α : Type} {take : Statement → Option α}
    (htake : ∀ call, take (.gate call) = none)
    (h : List.Forall₂ Exchanged sts sts') : sts'.filterMap take = sts.filterMap take := by
  induction h with
  | nil => rfl
  | cons hst _ ih =>
    cases hst with
    | same st => rw [List.filterMap_cons, List.filterMap_cons, ih]
    | gate name params a b line =>
      rw [List.filterMap_cons_none (htake _), List.filterMap_cons_none (htake _), ih]

/-- The programs are the same up to the first gate. -/
theorem split_exchanged (h : List.Forall₂ Exchanged sts sts') :
    sts'.takeWhile (!·.isGate) = sts.takeWhile (!·.isGate) ∧
      List.Forall₂ Exchanged (sts.dropWhile (!·.isGate)) (sts'.dropWhile (!·.isGate)) := by
  induction h with
  | nil => exact ⟨rfl, .nil⟩
  | @cons st st' sts sts' hst hsts ih =>
    cases hst with
    | same =>
      by_cases hgate : st.isGate
      · simp only [List.takeWhile_cons, List.dropWhile_cons, hgate]
        exact ⟨rfl, .cons (.same st) hsts⟩
      · simp only [List.takeWhile_cons, List.dropWhile_cons, hgate]
        exact ⟨congrArg (st :: ·) ih.1, ih.2⟩
    | gate name params a b line => exact ⟨rfl, .cons (.gate name params a b line) hsts⟩

end Statement

namespace Program

/-- The programs differ only in the order of the two operands of some gates. -/
structure Exchanged (p p' : Program) : Prop where
  version : p'.version = p.version
  statements : List.Forall₂ Statement.Exchanged p.statements p'.statements

/-- All qubits that the program uses are in declared registers. -/
def OnlyDeclared (p : Program) : Prop :=
  ∀ st ∈ p.statements, ∀ o ∈ st.qubitOperands, ∃ d ∈ p.qregs, d.name = o.register

/-- No quantum register is declared after the first gate. -/
def DeclaresFirst (p : Program) : Prop :=
  ∀ d, .qreg d ∉ p.statements.dropWhile (!·.isGate)

variable {p p' : Program}

theorem Exchanged.registers (h : p.Exchanged p') : Registers.ofProgram p' = .ofProgram p := by
  have hqregs : p'.qregs = p.qregs := Statement.filterMap_exchanged (fun _ => rfl) h.statements
  have hcregs : p'.cregs = p.cregs := Statement.filterMap_exchanged (fun _ => rfl) h.statements
  rw [Registers.ofProgram, hqregs, hcregs]
  rfl

/-- All declared qubits are declared before the first gate. -/
theorem DeclaresFirst.declared (h : p.DeclaresFirst) :
    (p.statements.takeWhile (!·.isGate)).flatMap (·.declared) =
      (Registers.ofProgram p).qubitNames := by
  have hrest : (p.statements.dropWhile (!·.isGate)).flatMap (·.declared) = [] := by
    rw [List.flatMap_eq_nil_iff]
    intro st hst
    cases st with
    | qreg d => exact absurd hst (h d)
    | includes | creg | gate | measure | reset | barrier => rfl
  rw [← Statement.flatMap_declared, ← List.takeWhile_append_dropWhile (p := (!·.isGate))
    (l := p.statements), List.flatMap_append, List.takeWhile_append_dropWhile, hrest,
    List.append_nil]

end Program

/-! ## Requests -/

/-- Two expansions fit together in either order. -/
theorem Expansion.width_comm {e f : Expansion} {n : Nat} (h : width [e, f] = .ok n) :
    width [f, e] = .ok n := by
  have hfit := width_eq_ok_iff.mp h
  have hmem : ∀ x, x ∈ [f, e] ↔ x ∈ [e, f] := fun x => (List.Perm.swap e f []).mem_iff
  refine width_eq_ok_iff.mpr ⟨fun x hx => hfit.sizes x ((hmem x).mp hx), fun hall => ?_⟩
  exact hfit.single fun x hx => hall x ((hmem x).mpr hx)

namespace Registers

variable {r : Registers}

/-- A declared register has a size, that of one of its declarations. -/
theorem exists_sizeOf? {decls : List RegisterDecl} {name : String}
    (h : ∃ d ∈ decls, d.name = name) :
    ∃ d ∈ decls, d.name = name ∧ sizeOf? decls name = some d.size := by
  obtain ⟨d, hd, hname⟩ := h
  have hsome : (decls.reverse.find? (·.name = name)).isSome := by
    rw [List.find?_isSome]
    exact ⟨d, List.mem_reverse.mpr hd, decide_eq_true hname⟩
  obtain ⟨last, hlast⟩ := Option.isSome_iff_exists.mp hsome
  refine ⟨last, List.mem_reverse.mp (List.mem_of_find?_eq_some hlast), ?_, ?_⟩
  · have hname := List.find?_some hlast
    exact of_decide_eq_true hname
  · rw [sizeOf?, hlast, Option.map_some]

/-- What an operand of a declared register stands for has been declared. -/
theorem mem_qubitNames_of_expandQubits {o : Operand} (ho : ∃ d ∈ r.qregs, d.name = o.register)
    {names : List String} (h : r.expandQubits o = .ok names) {name : String}
    (hname : name ∈ names) :
    name ∈ r.qubitNames := by
  obtain ⟨d, hd, hregister, hsize⟩ := exists_sizeOf? ho
  have hdeclared : ∀ i < d.size, elementName o.register i ∈ r.qubitNames := by
    intro i hi
    rw [← hregister]
    exact List.mem_flatMap.mpr ⟨d, hd, List.mem_map.mpr ⟨i, List.mem_range.mpr hi, rfl⟩⟩
  rw [expandQubits, expand, hsize] at h
  cases hindex : o.index with
  | none =>
    rw [hindex] at h
    obtain rfl := Except.ok.inj h
    obtain ⟨i, hi, rfl⟩ := List.mem_map.mp hname
    exact hdeclared i (List.mem_range.mp hi)
  | some i =>
    rw [hindex] at h
    dsimp only at h
    split at h
    · cases h
    · rename_i hlt
      obtain rfl := Except.ok.inj h
      obtain rfl := List.mem_singleton.mp hname
      rw [Operand.text, hindex]
      exact hdeclared i (Nat.lt_of_not_le hlt)

/-- A gate on two operands is applied to pairs of names that they stand for. -/
theorem applications_pair_eq_ok_iff {a b : Operand} {apps : List (List String)} :
    r.applications [a, b] = .ok apps ↔
      ∃ as bs n, r.expandQubits a = .ok as ∧ r.expandQubits b = .ok bs ∧
        Expansion.width [⟨a.text, as⟩, ⟨b.text, bs⟩] = .ok n ∧
        apps = (List.range n).map fun i =>
          [Expansion.pick ⟨a.text, as⟩ i, Expansion.pick ⟨b.text, bs⟩ i] := by
  rw [applications, bind_eq_ok_iff]
  simp only [mapM_eq_ok_iff, List.forall₂_cons_left_iff, List.forall₂_nil_left_iff, bind_eq_ok_iff,
    Expansion.broadcast]
  constructor
  · rintro ⟨_, ⟨_, _, ⟨as, has, ha⟩, ⟨_, _, ⟨bs, hbs, hb⟩, rfl, rfl⟩, rfl⟩, n, hn, happs⟩
    obtain rfl := Except.ok.inj ha
    obtain rfl := Except.ok.inj hb
    exact ⟨as, bs, n, has, hbs, hn, (Except.ok.inj happs).symm⟩
  · rintro ⟨as, bs, n, has, hbs, hn, rfl⟩
    exact ⟨_, ⟨_, _, ⟨as, has, rfl⟩, ⟨_, _, ⟨bs, hbs, rfl⟩, rfl, rfl⟩, rfl⟩, n, hn, rfl⟩

/-- A gate on two operands lets the two names of every application meet. -/
theorem requests_pair_eq_ok_iff {name : String} {params : Option String} {a b : Operand}
    {line : Nat} {cs : List Request} :
    r.requests (.gate ⟨name, params, [a, b], line⟩) = .ok cs ↔
      ∃ as bs n, r.expandQubits a = .ok as ∧ r.expandQubits b = .ok bs ∧
        Expansion.width [⟨a.text, as⟩, ⟨b.text, bs⟩] = .ok n ∧
        cs = (List.range n).map fun i =>
          .recordNamed (Expansion.pick ⟨a.text, as⟩ i) (Expansion.pick ⟨b.text, bs⟩ i) := by
  have hrequests (f g : Nat → String) (n : Nat) :
      (((List.range n).map fun i => [f i, g i]).map (Instruction.gate name params)).flatMap
        (·.requests) =
        (List.range n).map fun i => .recordNamed (f i) (g i) := by
    rw [List.map_map, List.flatMap_map, List.map_eq_flatMap]
    rfl
  rw [requests, bind_eq_ok_iff]
  simp only [instructions, bind_eq_ok_iff, applications_pair_eq_ok_iff]
  constructor
  · rintro ⟨_, ⟨_, ⟨as, bs, n, has, hbs, hn, rfl⟩, his⟩, hcs⟩
    obtain rfl := Except.ok.inj his
    obtain rfl := Except.ok.inj hcs
    exact ⟨as, bs, n, has, hbs, hn, hrequests _ _ n⟩
  · rintro ⟨as, bs, n, has, hbs, hn, rfl⟩
    exact ⟨_, ⟨_, ⟨as, bs, n, has, hbs, hn, rfl⟩, rfl⟩, congrArg Except.ok (hrequests _ _ n)⟩

/-- **An exchanged statement** makes the same requests, with the names of its meetings exchanged. -/
theorem requests_exchanged {st st' : Statement} (h : st.Exchanged st')
    (hst : ∀ o ∈ st.qubitOperands, ∃ d ∈ r.qregs, d.name = o.register) {cs : List Request}
    (hcs : r.requests st = .ok cs) :
    ∃ cs', r.requests st' = .ok cs' ∧ List.Forall₂ (Request.Exchanged r.qubitNames) cs cs' := by
  cases h with
  | same => exact ⟨cs, hcs, List.forall₂_same.mpr fun c _ => .same c⟩
  | gate name params a b line =>
    obtain ⟨as, bs, n, has, hbs, hn, rfl⟩ := requests_pair_eq_ok_iff.mp hcs
    refine ⟨_, requests_pair_eq_ok_iff.mpr ⟨bs, as, n, hbs, has, Expansion.width_comm hn, rfl⟩, ?_⟩
    rw [List.forall₂_map_left_iff, List.forall₂_map_right_iff, List.forall₂_same]
    intro i hi
    have hlt := List.mem_range.mp hi
    apply Request.Exchanged.meeting
    · exact mem_qubitNames_of_expandQubits (hst a (by simp [Statement.qubitOperands])) has
        (Expansion.pick_mem hn (by simp) hlt)
    · exact mem_qubitNames_of_expandQubits (hst b (by simp [Statement.qubitOperands])) hbs
        (Expansion.pick_mem hn (by simp) hlt)

theorem gather_requests_exchanged {sts sts' : List Statement}
    (h : List.Forall₂ Statement.Exchanged sts sts')
    (hsts : ∀ st ∈ sts, ∀ o ∈ st.qubitOperands, ∃ d ∈ r.qregs, d.name = o.register)
    {cs : List Request} (hcs : gather r.requests sts = .ok cs) :
    ∃ cs', gather r.requests sts' = .ok cs' ∧
      List.Forall₂ (Request.Exchanged r.qubitNames) cs cs' := by
  induction h generalizing cs with
  | nil =>
    obtain rfl := Except.ok.inj hcs
    exact ⟨[], rfl, .nil⟩
  | cons hst _ ih =>
    obtain ⟨cs₁, cs₂, hcs₁, hcs₂, rfl⟩ := gather_cons_eq_ok_iff.mp hcs
    obtain ⟨cs₁', hcs₁', hexchanged₁⟩ := requests_exchanged hst (hsts _ List.mem_cons_self) hcs₁
    obtain ⟨cs₂', hcs₂', hexchanged₂⟩ :=
      ih (fun st hst => hsts st (List.mem_cons_of_mem _ hst)) hcs₂
    exact ⟨cs₁' ++ cs₂', gather_cons_eq_ok_iff.mpr ⟨cs₁', cs₂', hcs₁', hcs₂', rfl⟩,
      List.rel_append hexchanged₁ hexchanged₂⟩

end Registers

/-! ## The first pass -/

namespace Pass

variable {p p' : Program} {t : Topology} {settings : MapperSettings} {r : Registers} {s : Session}

/-- When the first gate comes, all declared qubits are in the graph. -/
theorem mem_names_before_gates (hfirst : p.DeclaresFirst) {cs : List Request}
    (hplain : ∀ c ∈ cs, c.Plain)
    (hcs : gather (Registers.ofProgram p).requests (p.statements.takeWhile (!·.isGate)) = .ok cs) :
    ∀ name ∈ (Registers.ofProgram p).qubitNames,
      name ∈ (InteractionGraph.empty.afterAll cs).names := by
  intro name hname
  obtain ⟨names, is, hnames, his, hasks⟩ := asks_of_gather_requests hcs
  rw [(InteractionGraph.afterAll_views InteractionGraph.wellFormed_empty cs).1, mem_foldl_withName,
    Request.flatMap_qubits_eq hplain, hasks.names, mem_mentions hnames his, hfirst.declared]
  exact Or.inr (Or.inl hname)

/-- The first pass over an exchanged program succeeds as well, and its graph differs in the order in
which interactions write their qubits only. -/
theorem gives_collect_exchanged (h : p.Exchanged p') (hdeclared : p.OnlyDeclared)
    (hfirst : p.DeclaresFirst) (hcollect : Gives (collect p) (settings.session t) r s) :
    ∃ g, Gives (collect p') (settings.session t) r { s with graph := g } ∧
      g.ordered = s.graph.ordered := by
  obtain ⟨rfl, cs, hcs, hplain, rfl⟩ := gives_collect_fresh_iff.mp hcollect
  rw [← List.takeWhile_append_dropWhile (p := (!·.isGate)) (l := p.statements),
    gather_append_eq_ok_iff] at hcs
  obtain ⟨cs₁, cs₂, hcs₁, hcs₂, rfl⟩ := hcs
  obtain ⟨hplain₁, hplain₂⟩ := List.forall_mem_append.mp hplain
  obtain ⟨hbefore, hafter⟩ := Statement.split_exchanged h.statements
  have hoperands : ∀ st ∈ p.statements.dropWhile (!·.isGate), ∀ o ∈ st.qubitOperands,
      ∃ d ∈ p.qregs, d.name = o.register :=
    fun st hst => hdeclared st (List.dropWhile_subset _ hst)
  obtain ⟨cs₂', hcs₂', hexchanged⟩ :=
    Registers.gather_requests_exchanged (r := .ofProgram p) hafter hoperands hcs₂
  refine ⟨InteractionGraph.empty.afterAll (cs₁ ++ cs₂'), ?_, ?_⟩
  · refine gives_collect_fresh_iff.mpr ⟨h.registers.symm, cs₁ ++ cs₂', ?_, ?_, rfl⟩
    · rw [← List.takeWhile_append_dropWhile (p := (!·.isGate)) (l := p'.statements),
        gather_append_eq_ok_iff, h.registers, hbefore]
      exact ⟨cs₁, cs₂', hcs₁, hcs₂', rfl⟩
    · exact List.forall_mem_append.mpr ⟨hplain₁, Request.Exchanged.plain hexchanged hplain₂⟩
  · have hgraph : (asked (settings.session t) (cs₁ ++ cs₂)).graph =
        (InteractionGraph.empty.afterAll cs₁).afterAll cs₂ :=
      InteractionGraph.afterAll_append _ cs₁ cs₂
    rw [hgraph, InteractionGraph.afterAll_append]
    exact InteractionGraph.afterAll_exchanged (InteractionGraph.wellFormed_empty.afterAll cs₁) rfl
      (mem_names_before_gates hfirst hplain₁ hcs₁) hexchanged

/-- Sessions whose graphs are alike are placed in the same way. -/
theorem place_alike {g : InteractionGraph} (h : s.graph.Alike g) (hopen : s.placed = none) :
    (Session.place.run.run { s with graph := g }).1 = (Session.place.run.run s).1 := by
  rw [Session.place_run, Session.place_run, hopen]
  dsimp only
  rw [h.initialPlacement]
  cases initialPlacement s.options s.graph s.topology with
  | error e => rfl
  | ok m => rfl

/-- **Meetings are symmetric**: where the first pass succeeds in a fresh session, it succeeds for
every program in which the two operands of some gates are exchanged, as long as all qubits are
declared, and this before the first gate. Its graph is the same, but for the order in which
interactions write their qubits, and has the same placement or fails for the same reason. -/
theorem collect_exchanged {p p' : Program} (h : p.Exchanged p') (hdeclared : p.OnlyDeclared)
    (hfirst : p.DeclaresFirst) {t : Topology} {settings : MapperSettings} {r : Registers}
    {s : Session} (hcollect : (collect p).run.run (settings.session t) = (.ok r, s)) :
    ∃ s', (collect p').run.run (settings.session t) = (.ok r, s') ∧ s.graph.Resembles s'.graph ∧
      (Session.place.run.run s').1 = (Session.place.run.run s).1 := by
  obtain ⟨g, hcollect', hordered⟩ := gives_collect_exchanged h hdeclared hfirst hcollect
  have hresembles := InteractionGraph.resembles_of_ordered_eq hordered
  have hopen : s.placed = none := by
    obtain ⟨-, cs, -, -, rfl⟩ := gives_collect_fresh_iff.mp hcollect
    rfl
  exact ⟨{ s with graph := g }, hcollect', hresembles, place_alike hresembles.alike hopen⟩

/-- Whole registers meet in the other order, after a measurement and a gate on one qubit. -/
theorem collect_exchanged_registers :
    ∃ (p p' : Program) (r : Registers) (s : Session),
      p.Exchanged p' ∧ p.OnlyDeclared ∧ p.DeclaresFirst ∧
      (collect p).run.run (({} : MapperSettings).session (.linear 4)) = (.ok r, s) ∧
      s.graph.pairs = [(⟨0⟩, ⟨2⟩), (⟨1⟩, ⟨3⟩), (⟨1⟩, ⟨0⟩)] ∧
      ∃ s', (collect p').run.run (({} : MapperSettings).session (.linear 4)) = (.ok r, s') ∧
        s'.graph.pairs = [(⟨2⟩, ⟨0⟩), (⟨3⟩, ⟨1⟩), (⟨1⟩, ⟨0⟩)] ∧ s.graph.Resembles s'.graph ∧
        (Session.place.run.run s').1 = (Session.place.run.run s).1 := by
  let p : Program := ⟨"2.0", [.qreg ⟨"q", 2⟩, .measure ⟨"q", some 1⟩ ⟨"c", none⟩, .qreg ⟨"r", 2⟩,
    .gate ⟨"h", none, [⟨"q", none⟩], 3⟩, .gate ⟨"cx", none, [⟨"q", none⟩, ⟨"r", none⟩], 4⟩,
    .gate ⟨"cx", none, [⟨"q", some 1⟩, ⟨"q", some 0⟩], 5⟩]⟩
  let p' : Program := ⟨"2.0", [.qreg ⟨"q", 2⟩, .measure ⟨"q", some 1⟩ ⟨"c", none⟩, .qreg ⟨"r", 2⟩,
    .gate ⟨"h", none, [⟨"q", none⟩], 3⟩, .gate ⟨"cx", none, [⟨"r", none⟩, ⟨"q", none⟩], 4⟩,
    .gate ⟨"cx", none, [⟨"q", some 1⟩, ⟨"q", some 0⟩], 5⟩]⟩
  have hp : p.Exchanged p' :=
    ⟨rfl, .cons (.same _) (.cons (.same _) (.cons (.same _) (.cons (.same _)
      (.cons (.gate "cx" none ⟨"q", none⟩ ⟨"r", none⟩ 4) (.cons (.same _) .nil)))))⟩
  have hdeclared : p.OnlyDeclared := by
    unfold Program.OnlyDeclared
    decide +kernel
  have hfirst : p.DeclaresFirst := by
    intro d
    simp [p, Statement.isGate]
  have hcollect : ((collect p).run.run (({} : MapperSettings).session (.linear 4))).1.toOption =
      some (.ofProgram p) := by
    decide +kernel
  have hpairs : ((collect p).run.run (({} : MapperSettings).session (.linear 4))).2.graph.pairs =
      [(⟨0⟩, ⟨2⟩), (⟨1⟩, ⟨3⟩), (⟨1⟩, ⟨0⟩)] := by
    decide +kernel
  have hpairs' : ((collect p').run.run (({} : MapperSettings).session (.linear 4))).2.graph.pairs =
      [(⟨2⟩, ⟨0⟩), (⟨3⟩, ⟨1⟩), (⟨1⟩, ⟨0⟩)] := by
    decide +kernel
  obtain ⟨s, hrun⟩ := fst_run_eq_ok_iff.mp (toOption_eq_some_iff.mp hcollect)
  obtain ⟨s', hrun', hagree⟩ := collect_exchanged hp hdeclared hfirst hrun
  rw [hrun] at hpairs
  rw [hrun'] at hpairs'
  exact ⟨p, p', _, s, hp, hdeclared, hfirst, hrun, hpairs, s', hrun', hpairs', hagree⟩

end Pass

end QubitRouting
