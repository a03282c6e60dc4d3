import QubitRouting.Proofs.Interaction.Names
import QubitRouting.Proofs.Mapping.Emission

/-!
# What the first pass takes note of

Before placement, a pass only ever makes requests to the interaction graph. `Pass.Makes x requests`
specifies a step of the first pass: it succeeds if and only if its operands can be expanded and none
of its requests lets a qubit meet itself, and then it has made these requests and nothing else. The
rules for sequences and loops lead from single requests to the whole pass (`makes_program`).

Placement and the second pass need less: which names there are, and whether any qubits meet
(`Pass.Noted`, `collects_program`).
-/

set_option autoImplicit false

namespace QubitRouting

open InteractionGraph (Request)

namespace Statement

/-- The qubits that a statement declares. -/
def declared : Statement → List String
  | qreg decl => decl.elements
  | _ => []

theorem flatMap_declared (p : Program) :
    p.statements.flatMap declared = (Registers.ofProgram p).qubitNames := by
  simp only [Registers.qubitNames, Registers.ofProgram, Program.qregs]
  induction p.statements with
  | nil => rfl
  | cons st sts ih =>
    rw [List.flatMap_cons, ih]
    cases st <;> simp [declared]

end Statement

/-! ## What a program asks for -/

namespace Instruction

/-- The classical bits that an instruction declares or sets. -/
def bits {Q : Type} : Instruction Q → List String
  | creg decl => decl.elements
  | measure _ bit => [bit]
  | gate _ _ _ | reset _ | barrier _ => []

/-- What the first pass requests for an instruction. -/
def requests : Instruction String → List Request
  | creg decl => decl.elements.map .addBit
  | gate _ _ [a, b] => [.recordNamed a b]
  | gate _ _ names => names.map .addQubit
  | measure qubit bit => [.addQubit qubit, .addBit bit]
  | reset qubit => [.addQubit qubit]
  | barrier names => names.map .addQubit

end Instruction

namespace Registers

/-- What the first pass requests for a statement. -/
def requests (r : Registers) (st : Statement) : Except RegisterError (List Request) :=
  return st.declared.map .addQubit ++ (← r.instructions st).flatMap (·.requests)

/-- The qubits that a statement declares or acts on, in order. -/
def mentions (r : Registers) (st : Statement) : Except RegisterError (List String) :=
  return st.declared ++ (← r.instructions st).flatMap (·.qubits)

end Registers

namespace Pass

/-- The pairs of qubits that meet in gates of a circuit. -/
def meetings (circuit : List (Instruction String)) : List (String × String) :=
  circuit.filterMap (·.pair?)

theorem mem_meetings {src : List (Instruction String)} {a b : String} :
    (a, b) ∈ meetings src ↔ ∃ name params, .gate name params [a, b] ∈ src := by
  rw [meetings, List.mem_filterMap]
  constructor
  · rintro ⟨i, hi, hpair⟩
    obtain ⟨name, params, rfl⟩ := Instruction.pair?_eq_some_iff.mp hpair
    exact ⟨name, params, hi⟩
  · rintro ⟨name, params, hi⟩
    exact ⟨_, hi, rfl⟩

/-- No gate names one qubit twice. -/
def Apart (circuit : List (Instruction String)) : Prop := ∀ c ∈ meetings circuit, c.1 ≠ c.2

/-- The requests ask for the names, bits and meetings of a circuit. -/
structure Asks (cs : List Request) (names : List String) (circuit : List (Instruction String)) :
    Prop where
  names : cs.flatMap (·.names) = names
  bits : cs.flatMap (·.bits) = circuit.flatMap (·.bits)
  pairs : cs.filterMap (·.pair?) = meetings circuit
  plain : (∀ c ∈ cs, c.Plain) ↔ Apart circuit

namespace Asks

variable {cs cs' : List Request} {names names' : List String} {is is' : List (Instruction String)}

theorem nil : Asks [] [] [] := ⟨rfl, rfl, rfl, by simp [Apart, meetings]⟩

theorem append (h : Asks cs names is) (h' : Asks cs' names' is') :
    Asks (cs ++ cs') (names ++ names') (is ++ is') where
  names := by rw [List.flatMap_append, h.names, h'.names]
  bits := by rw [List.flatMap_append, List.flatMap_append, h.bits, h'.bits]
  pairs := by rw [List.filterMap_append, h.pairs, h'.pairs, meetings, meetings, meetings,
    List.filterMap_append]
  plain := by
    rw [List.forall_mem_append, h.plain, h'.plain]
    simp only [Apart, meetings, List.filterMap_append, List.forall_mem_append]

theorem addQubits (names : List String) (is : List (Instruction String))
    (hbits : is.flatMap (·.bits) = []) (hmeetings : meetings is = []) :
    Asks (names.map .addQubit) names is where
  names := by simp [List.flatMap_map, Request.names]
  bits := by simp [List.flatMap_map, Request.bits, hbits]
  pairs := by
    rw [hmeetings, List.filterMap_map]
    simp [Function.comp_def, Request.pair?]
  plain := by simp [Request.Plain, Apart, hmeetings]

theorem instruction (i : Instruction String) : Asks i.requests i.qubits [i] := by
  cases i with
  | creg decl =>
    refine ⟨?_, ?_, ?_, ?_⟩
    · simp [Instruction.requests, List.flatMap_map, Request.names, Instruction.qubits]
    · simp [Instruction.requests, List.flatMap_map, Request.bits, Instruction.bits]
    · simp [Instruction.requests, List.filterMap_map, Request.pair?, meetings, Instruction.pair?]
    · simp [Instruction.requests, Request.Plain, Apart, meetings, Instruction.pair?]
  | gate name params names =>
    rcases names with _ | ⟨a, _ | ⟨b, _ | ⟨c, more⟩⟩⟩
    · exact addQubits [] _ rfl rfl
    · exact addQubits [a] _ rfl rfl
    · exact ⟨rfl, rfl, rfl, by simp [Instruction.requests, Request.Plain, Apart, meetings,
        Instruction.pair?]⟩
    · exact addQubits (a :: b :: c :: more) _ rfl rfl
  | measure qubit bit =>
    exact ⟨rfl, rfl, rfl, by simp [Instruction.requests, Request.Plain, Apart, meetings,
      Instruction.pair?]⟩
  | reset qubit => exact addQubits [qubit] _ rfl rfl
  | barrier names => exact addQubits names _ rfl rfl

theorem instructions (is : List (Instruction String)) :
    Asks (is.flatMap (·.requests)) (is.flatMap (·.qubits)) is := by
  induction is with
  | nil => exact nil
  | cons i is ih => exact (instruction i).append ih

end Asks

theorem asks_of_requests {r : Registers} {st : Statement} {cs : List Request}
    (h : r.requests st = .ok cs) :
    ∃ names is, r.mentions st = .ok names ∧ r.instructions st = .ok is ∧ Asks cs names is := by
  obtain ⟨is, his, hcs⟩ := bind_eq_ok_iff.mp h
  obtain rfl := Except.ok.inj hcs
  refine ⟨_, is, bind_eq_ok_iff.mpr ⟨is, his, rfl⟩, his, ?_⟩
  exact (Asks.addQubits st.declared [] rfl rfl).append (Asks.instructions is)

theorem asks_of_gather_requests {r : Registers} {sts : List Statement} {cs : List Request}
    (h : gather r.requests sts = .ok cs) :
    ∃ names is, gather r.mentions sts = .ok names ∧ gather r.instructions sts = .ok is ∧
      Asks cs names is := by
  induction sts generalizing cs with
  | nil =>
    obtain rfl := Except.ok.inj h
    exact ⟨[], [], rfl, rfl, .nil⟩
  | cons st sts ih =>
    obtain ⟨cs₁, cs₂, h₁, h₂, rfl⟩ := gather_cons_eq_ok_iff.mp h
    obtain ⟨names₁, is₁, hnames₁, his₁, hasks₁⟩ := asks_of_requests h₁
    obtain ⟨names₂, is₂, hnames₂, his₂, hasks₂⟩ := ih h₂
    exact ⟨names₁ ++ names₂, is₁ ++ is₂, gather_cons_eq_ok_iff.mpr ⟨_, _, hnames₁, hnames₂, rfl⟩,
      gather_cons_eq_ok_iff.mpr ⟨_, _, his₁, his₂, rfl⟩, hasks₁.append hasks₂⟩

theorem exists_gather_requests {r : Registers} {sts : List Statement}
    {is : List (Instruction String)}
    (h : gather r.instructions sts = .ok is) : ∃ cs, gather r.requests sts = .ok cs := by
  induction sts generalizing is with
  | nil => exact ⟨[], rfl⟩
  | cons st sts ih =>
    obtain ⟨is₁, is₂, h₁, h₂, -⟩ := gather_cons_eq_ok_iff.mp h
    obtain ⟨cs₂, hcs₂⟩ := ih h₂
    exact ⟨_, gather_cons_eq_ok_iff.mpr ⟨_, cs₂, bind_eq_ok_iff.mpr ⟨is₁, h₁, rfl⟩, hcs₂, rfl⟩⟩

/-- The names that statements mention are those that they declare and those of the circuit. -/
theorem mem_mentions {r : Registers} {sts : List Statement} {names : List String}
    {is : List (Instruction String)} (hnames : gather r.mentions sts = .ok names)
    (his : gather r.instructions sts = .ok is) (name : String) :
    name ∈ names ↔ name ∈ sts.flatMap (·.declared) ∨ name ∈ is.flatMap (·.qubits) := by
  induction sts generalizing names is with
  | nil =>
    obtain rfl := Except.ok.inj hnames
    obtain rfl := Except.ok.inj his
    simp
  | cons st sts ih =>
    obtain ⟨names₁, names₂, hnames₁, hnames₂, rfl⟩ := gather_cons_eq_ok_iff.mp hnames
    obtain ⟨is₁, is₂, his₁, his₂, rfl⟩ := gather_cons_eq_ok_iff.mp his
    rw [Registers.mentions, his₁] at hnames₁
    obtain rfl := Except.ok.inj hnames₁
    rw [List.mem_append, List.mem_append, ih hnames₂ his₂, List.flatMap_cons, List.flatMap_append,
      List.mem_append, List.mem_append]
    exact or_or_or_comm

/-! ## Steps of the first pass -/

variable {s s' : Session}

/-- The session after requests to its graph. -/
def asked (s : Session) (cs : List Request) : Session := { s with graph := s.graph.afterAll cs }

theorem asked_append (s : Session) (cs cs' : List Request) :
    asked s (cs ++ cs') = asked (asked s cs) cs' := by
  simp only [asked, InteractionGraph.afterAll_append]

/-- What a step of the first pass does to sessions without a placement: it makes these requests. -/
def Makes (x : PassM Unit) (requests : Except RegisterError (List Request)) : Prop :=
  ∀ s s' : Session, s.placed = none → s.graph.WellFormed →
    (Gives x s () s' ↔
      ∃ cs, requests = .ok cs ∧ (∀ c ∈ cs, c.Plain) ∧ s' = asked s cs)

namespace Makes

variable {x y : PassM Unit} {requests requests' : Except RegisterError (List Request)}

theorem done : Makes (pure ()) (.ok []) := by
  intro s s' _ _
  rw [gives_pure]
  constructor
  · rintro ⟨-, rfl⟩
    exact ⟨[], rfl, by simp, rfl⟩
  · rintro ⟨cs, hcs, -, rfl⟩
    obtain rfl := Except.ok.inj hcs
    exact ⟨rfl, rfl⟩

theorem seq (hx : Makes x requests) (hy : Makes y requests') :
    Makes (do x; y) (do return (← requests) ++ (← requests')) := by
  intro s s' hopen hwf
  rw [gives_bind]
  constructor
  · rintro ⟨_, s₁, h₁, h₂⟩
    obtain ⟨cs₁, hcs₁, hplain₁, rfl⟩ := (hx _ _ hopen hwf).mp h₁
    obtain ⟨cs₂, hcs₂, hplain₂, rfl⟩ := (hy (asked s cs₁) _ hopen (hwf.afterAll cs₁)).mp h₂
    refine ⟨cs₁ ++ cs₂, by rw [hcs₁, hcs₂]; rfl, List.forall_mem_append.mpr ⟨hplain₁, hplain₂⟩, ?_⟩
    rw [asked_append]
  · rintro ⟨cs, hcs, hplain, rfl⟩
    obtain ⟨cs₁, hcs₁, hcs⟩ := bind_eq_ok_iff.mp hcs
    obtain ⟨cs₂, hcs₂, hcs⟩ := bind_eq_ok_iff.mp hcs
    obtain rfl := Except.ok.inj hcs
    obtain ⟨hplain₁, hplain₂⟩ := List.forall_mem_append.mp hplain
    refine ⟨(), _, (hx _ _ hopen hwf).mpr ⟨cs₁, hcs₁, hplain₁, rfl⟩,
      (hy (asked s cs₁) _ hopen (hwf.afterAll cs₁)).mpr ⟨cs₂, hcs₂, hplain₂, ?_⟩⟩
    rw [asked_append]

theorem forM {α : Type} {f : α → PassM Unit} {requests : α → Except RegisterError (List Request)}
    {xs : List α} (h : ∀ a ∈ xs, Makes (f a) (requests a)) :
    Makes (xs.forM f) (gather requests xs) := by
  induction xs with
  | nil => exact done
  | cons a xs ih =>
    have hseq := (h a List.mem_cons_self).seq (ih fun b hb => h b (List.mem_cons_of_mem a hb))
    rw [gather_cons]
    exact hseq

/-- A loop whose requests are known. -/
theorem forM_ok {α : Type} {f : α → PassM Unit} (requests : α → List Request) {xs : List α}
    (h : ∀ a ∈ xs, Makes (f a) (.ok (requests a))) :
    Makes (xs.forM f) (.ok (xs.flatMap requests)) := by
  have hgather : gather (fun a => (.ok (requests a) : Except RegisterError (List Request))) xs =
      .ok (xs.flatMap requests) := by
    rw [gather, show (xs.mapM fun a => (Except.ok (requests a) : Except RegisterError _)) =
      _ from List.mapM_pure]
    rfl
  rw [← hgather]
  exact forM h

/-- The operands are expanded first. -/
theorem expand {α : Type} {result : Except RegisterError α} {f : α → PassM Unit}
    {requests : α → Except RegisterError (List Request)} (h : ∀ a, Makes (f a) (requests a)) :
    Makes (do f (← onRegisters result)) (do requests (← result)) := by
  intro s s' hopen hwf
  rw [gives_bind]
  constructor
  · rintro ⟨a, s₁, hexpand, hrest⟩
    obtain ⟨ha, rfl⟩ := gives_onRegisters.mp hexpand
    obtain ⟨cs, hcs, hmade⟩ := (h a _ _ hopen hwf).mp hrest
    exact ⟨cs, bind_eq_ok_iff.mpr ⟨a, ha, hcs⟩, hmade⟩
  · rintro ⟨cs, hcs, hmade⟩
    obtain ⟨a, ha, hcs⟩ := bind_eq_ok_iff.mp hcs
    exact ⟨a, s, gives_onRegisters.mpr ⟨ha, rfl⟩, (h a _ _ hopen hwf).mpr ⟨cs, hcs, hmade⟩⟩

end Makes

/-- A request that cannot fail. -/
theorem makes_request {α : Type} {x : SessionM α} {c : Request} (hplain : c.Plain)
    (hrun : ∀ s, ∃ a, Gives x s a (asked s [c])) : Makes (discard (onSession x)) (.ok [c]) := by
  intro s s' _ _
  obtain ⟨a, ha⟩ := hrun s
  rw [gives_discard]
  constructor
  · rintro ⟨b, hb⟩
    have hsame := (Prod.mk.inj ((gives_onSession.mp hb).symm.trans ha)).2
    exact ⟨[c], rfl, List.forall_mem_singleton.mpr hplain, hsame⟩
  · rintro ⟨cs, hcs, -, rfl⟩
    obtain rfl := Except.ok.inj hcs
    exact ⟨a, gives_onSession.mpr ha⟩

theorem makes_addQubit (name : String) :
    Makes (discard (onSession (Session.addQubit name))) (.ok [.addQubit name]) :=
  makes_request trivial fun s => ⟨_, Session.addQubit_run name s⟩

theorem makes_addBit (name : String) :
    Makes (discard (onSession (Session.addBit name))) (.ok [.addBit name]) :=
  makes_request trivial fun s => ⟨_, Session.addBit_run name s⟩

theorem makes_recordInteraction (a b : String) :
    Makes (discard (onSession (Session.recordInteraction a b))) (.ok [.recordNamed a b]) := by
  intro s s' hopen hwf
  have hplaced : s.isPlaced = false := Session.isPlaced_eq_false_iff.mpr hopen
  have hasked : asked s [.recordNamed a b] = { s with graph := (s.graph.recordNamed a b).2 } := rfl
  rw [gives_discard]
  constructor
  · rintro ⟨i, h⟩
    have hrun := gives_onSession.mp h
    rw [Gives, Session.recordInteraction_run, hplaced, if_neg Bool.false_ne_true] at hrun
    obtain ⟨hi, hs'⟩ := Prod.mk.inj hrun
    refine ⟨_, rfl, List.forall_mem_singleton.mpr (InteractionGraph.ne_of_recordNamed_eq_ok hi), ?_⟩
    rw [hasked, hs']
  · rintro ⟨cs, hcs, hplain, rfl⟩
    obtain rfl := Except.ok.inj hcs
    have hab : a ≠ b := hplain _ List.mem_cons_self
    refine ⟨(s.graph.metNamed a b).1, gives_onSession.mpr ?_⟩
    rw [Gives, Session.recordInteraction_run, hplaced, if_neg Bool.false_ne_true, hasked,
      InteractionGraph.recordNamed_eq hwf hab]

/-! ## The first pass -/

theorem makes_declareQubits (names : List String) :
    Makes (declareQubits names) (.ok (names.map .addQubit)) := by
  rw [List.map_eq_flatMap]
  exact .forM_ok _ fun name _ => makes_addQubit name

theorem makes_declareBits (names : List String) :
    Makes (declareBits names) (.ok (names.map .addBit)) := by
  rw [List.map_eq_flatMap]
  exact .forM_ok _ fun name _ => makes_addBit name

theorem makes_instruction (i : Instruction String) :
    Makes (collectInstruction i) (.ok i.requests) := by
  cases i with
  | creg decl => exact makes_declareBits decl.elements
  | gate name params names =>
    rcases names with _ | ⟨a, _ | ⟨b, _ | ⟨c, more⟩⟩⟩
    · exact makes_declareQubits []
    · exact makes_declareQubits [a]
    · exact makes_recordInteraction a b
    · exact makes_declareQubits (a :: b :: c :: more)
  | measure qubit bit => exact (makes_declareQubits [qubit]).seq (makes_declareBits [bit])
  | reset qubit => exact makes_declareQubits [qubit]
  | barrier names => exact makes_declareQubits names

theorem makes_expanded (result : Except RegisterError (List (Instruction String))) :
    Makes (do (← onRegisters result).forM collectInstruction)
      (do return (← result).flatMap (·.requests)) :=
  .expand fun _ => .forM_ok _ fun i _ => makes_instruction i

/-- The pass goes through the operands of a barrier one by one, while the circuit has a single
barrier: both declare the same names in the same order. -/
theorem requests_barrier (r : Registers) (qubits : List Operand) :
    gather (fun o => do return (← r.expandQubits o).map Request.addQubit) qubits =
      r.requests (.barrier qubits) := by
  have hrequests : r.requests (.barrier qubits) =
      (do return (← qubits.mapM r.expandQubits).flatten.map .addQubit) := by
    rw [Registers.requests, Registers.instructions]
    cases qubits.mapM r.expandQubits with
    | error e => rfl
    | ok names => exact congrArg Except.ok (List.append_nil _)
  rw [hrequests]
  clear hrequests
  induction qubits with
  | nil => rfl
  | cons o qubits ih =>
    rw [gather_cons, ih, List.mapM_cons]
    cases r.expandQubits o with
    | error e => rfl
    | ok names =>
      cases qubits.mapM r.expandQubits with
      | error e => rfl
      | ok more => exact congrArg Except.ok List.map_append.symm

theorem makes_statement (r : Registers) (st : Statement) :
    Makes (collectStatement r st) (r.requests st) := by
  cases st with
  | qreg decl =>
    have hrequests : r.requests (.qreg decl) = .ok (decl.elements.map .addQubit) :=
      congrArg Except.ok (List.append_nil _)
    rw [hrequests]
    exact makes_declareQubits decl.elements
  | barrier qubits =>
    rw [← requests_barrier]
    exact .forM fun o _ => .expand fun names => makes_declareQubits names
  | includes path => exact makes_expanded _
  | creg decl => exact makes_expanded _
  | gate call => exact makes_expanded _
  | measure qubit bit => exact makes_expanded _
  | reset qubit => exact makes_expanded _

/-- **The first pass** makes the requests of all statements, in order. -/
theorem makes_program (p : Program) :
    Makes (p.statements.forM (collectStatement (.ofProgram p)))
      (gather (Registers.ofProgram p).requests p.statements) :=
  .forM fun st _ => makes_statement (.ofProgram p) st

/-! ## What is left of it -/

/-- The session has learnt of these names and of these pairs. -/
structure Noted (s : Session) (names : List String) (pairs : List (String × String))
    (s' : Session) : Prop where
  frame : s' = { s with graph := s'.graph }
  wellFormed : s'.graph.WellFormed
  names : ∀ name, name ∈ s'.graph.names ↔ name ∈ s.graph.names ∨ name ∈ names
  pairs : s'.graph.pairs ≠ [] ↔ s.graph.pairs ≠ [] ∨ pairs ≠ []

/-- What a step of the first pass does to sessions without a placement. -/
structure Collects (x : PassM Unit) (declared : List String)
    (circuit : Except RegisterError (List (Instruction String))) : Prop where
  succeeds : ∀ {s is}, s.placed = none → s.graph.WellFormed → circuit = .ok is → Apart is →
    ∃ s', Gives x s () s' ∧ Noted s (declared ++ is.flatMap (·.qubits)) (meetings is) s'
  only : ∀ {s s'}, s.placed = none → s.graph.WellFormed → Gives x s () s' →
    ∃ is, circuit = .ok is ∧ Apart is

/-- On success the step has done what it is said to do: it has one outcome only. -/
theorem Collects.noted {x : PassM Unit} {declared : List String} {is : List (Instruction String)}
    (h : Collects x declared (.ok is)) (hopen : s.placed = none)
    (hwf : s.graph.WellFormed) (hgives : Gives x s () s') :
    Noted s (declared ++ is.flatMap (·.qubits)) (meetings is) s' := by
  obtain ⟨is', his, hapart⟩ := h.only hopen hwf hgives
  obtain rfl := Except.ok.inj his
  obtain ⟨s₁, hgives₁, hnoted⟩ := h.succeeds hopen hwf rfl hapart
  obtain rfl := (Prod.mk.inj (hgives.symm.trans hgives₁)).2
  exact hnoted

/-- The requests of a program leave its names in the graph, and an interaction if qubits meet. -/
theorem noted_asked {cs : List Request} {names names' : List String}
    {is : List (Instruction String)}
    (hwf : s.graph.WellFormed) (h : Asks cs names is) (hapart : Apart is)
    (hnames : ∀ name, name ∈ names ↔ name ∈ names') :
    Noted s names' (meetings is) (asked s cs) := by
  have hplain := h.plain.mpr hapart
  obtain ⟨hall, -, hpairs⟩ := InteractionGraph.afterAll_views hwf cs
  refine ⟨rfl, hwf.afterAll cs, ?_, ?_⟩
  · intro name
    rw [asked, hall, mem_foldl_withName, Request.flatMap_qubits_eq hplain, h.names, hnames]
  · have hmet := (InteractionGraph.met_named hwf hplain).length_eq
    rw [h.pairs] at hmet
    have hnil : meetings is = [] ↔ s.graph.met cs = [] := by
      rw [← List.length_eq_zero_iff, ← hmet, List.length_eq_zero_iff]
    rw [asked, hpairs, ne_eq, foldl_withPair_eq_nil_iff, not_and_or, ne_eq, ne_eq, hnil]

/-- **The first pass** takes note of the declared qubits and of the expanded circuit. -/
theorem collects_program (p : Program) :
    Collects (p.statements.forM (collectStatement (.ofProgram p)))
      (Registers.ofProgram p).qubitNames
      ((Registers.ofProgram p).circuit p) where
  succeeds {s is} hopen hwf his hapart := by
    obtain ⟨cs, hcs⟩ := exists_gather_requests his
    obtain ⟨names, is', hnames, his', hasks⟩ := asks_of_gather_requests hcs
    obtain rfl := Except.ok.inj (his.symm.trans his')
    refine ⟨asked s cs, (makes_program p _ _ hopen hwf).mpr ⟨cs, hcs, hasks.plain.mpr hapart, rfl⟩,
      noted_asked hwf hasks hapart fun name => ?_⟩
    rw [mem_mentions hnames his, Statement.flatMap_declared, List.mem_append]
  only {s s'} hopen hwf hgives := by
    obtain ⟨cs, hcs, hplain, -⟩ := (makes_program p _ _ hopen hwf).mp hgives
    obtain ⟨names, is, -, his, hasks⟩ := asks_of_gather_requests hcs
    exact ⟨is, his, hasks.plain.mp hplain⟩

theorem gives_collect_iff {p : Program} {r : Registers} :
    Gives (collect p) s r s' ↔
      Gives (p.statements.forM (collectStatement (.ofProgram p))) s () s' ∧ r = .ofProgram p := by
  rw [collect, gives_bind]
  constructor
  · intro ⟨_, s₁, hcollect, h⟩
    obtain ⟨hr, rfl⟩ := gives_pure.mp h
    exact ⟨hcollect, hr⟩
  · intro ⟨hcollect, hr⟩
    exact ⟨(), s', hcollect, gives_pure.mpr ⟨hr, rfl⟩⟩

/-- In a fresh session, the first pass makes the requests of the program and nothing else. -/
theorem gives_collect_fresh_iff {p : Program} {r : Registers} {t : Topology}
    {settings : MapperSettings} :
    Gives (collect p) (settings.session t) r s ↔
      r = .ofProgram p ∧ ∃ cs, gather (Registers.ofProgram p).requests p.statements = .ok cs ∧
        (∀ c ∈ cs, c.Plain) ∧ s = asked (settings.session t) cs := by
  rw [gives_collect_iff,
    makes_program p (settings.session t) s rfl InteractionGraph.wellFormed_empty, and_comm]

/-! ## From a source text to a placed session -/

theorem gives_place_iff {m : Layout} (hopen : s.placed = none) :
    Gives Session.place s m s' ↔
      initialPlacement s.options s.graph s.topology = .ok m ∧
      s' = { s with placed := some ⟨m, m⟩ } := by
  rw [Gives, Session.place_run, hopen]
  cases hm : initialPlacement s.options s.graph s.topology with
  | error e =>
    constructor
    · intro h
      cases h
    · rintro ⟨h, _⟩
      cases h
  | ok layout =>
    constructor
    · intro h
      cases h
      exact ⟨rfl, rfl⟩
    · rintro ⟨h, hs⟩
      cases h
      rw [hs]

/-- What the first pass leaves behind in a fresh session. -/
theorem noted_of_gives_collect {p : Program} {r : Registers} {t : Topology}
    {settings : MapperSettings} (h : Gives (collect p) (settings.session t) r s) :
    r = .ofProgram p ∧ ∃ src, r.circuit p = .ok src ∧ Apart src ∧
      Noted (settings.session t) (r.qubitNames ++ src.flatMap (·.qubits)) (meetings src) s := by
  obtain ⟨hloop, rfl⟩ := gives_collect_iff.mp h
  have hcollects := collects_program p
  obtain ⟨src, hsrc, hapart⟩ := hcollects.only rfl InteractionGraph.wellFormed_empty hloop
  rw [hsrc] at hcollects
  exact ⟨rfl, src, hsrc, hapart, hcollects.noted rfl InteractionGraph.wellFormed_empty hloop⟩

/-- A session in which a program has been collected and placed: all names have their places. -/
theorem placed_of_noted {names : List String} {pairs : List (String × String)} {t : Topology}
    {settings : MapperSettings} {m : Layout} (h : Noted (settings.session t) names pairs s)
    (hplace : Gives Session.place s m s') :
    s'.Valid ∧ s'.topology = t ∧ ∀ name ∈ names, ∃ q, Sits s' name q := by
  have hopen : s.placed = none := by rw [h.frame]; rfl
  obtain ⟨hm, rfl⟩ := (gives_place_iff hopen).mp hplace
  obtain ⟨hfits, hall⟩ := Placement.initialPlacement_fits h.wellFormed hm
  refine ⟨⟨h.wellFormed, ?_⟩, ?_, fun name hname => ?_⟩
  · intro m' hm'
    obtain rfl := Option.some.inj hm'
    exact hfits
  · rw [h.frame]
    rfl
  · have hmem := (h.names name).mpr (Or.inr hname)
    obtain ⟨l, hl⟩ := (InteractionGraph.exists_named?_iff h.wellFormed).mpr hmem
    obtain ⟨q, hq⟩ := Layout.isPlaced_iff.mp
      (hall l (InteractionGraph.lt_of_named?_eq_some h.wellFormed hl))
    exact ⟨q, Session.whereIs_eq_some_iff.mpr ⟨l, m, hl, rfl, hq⟩⟩

theorem gives_run_iff {p : Program} {costs : CostModel} {out : Mapped} :
    Gives (run p costs) s out s' ↔
      ∃ r s₁ m s₂, Gives (collect p) s r s₁ ∧ Gives Session.place s₁ m s₂ ∧
        Gives (emit p r costs) s₂ out s' := by
  rw [run, gives_bind]
  refine exists_congr fun r => exists_congr fun s₁ => ?_
  rw [gives_bind]
  constructor
  · rintro ⟨hcollect, _, s₂, hplace, hemit⟩
    obtain ⟨m, hplace⟩ := gives_discard.mp hplace
    exact ⟨m, s₂, hcollect, gives_onSession.mp hplace, hemit⟩
  · rintro ⟨m, s₂, hcollect, hplace, hemit⟩
    exact ⟨hcollect, (), s₂, gives_discard.mpr ⟨m, gives_onSession.mpr hplace⟩, hemit⟩

theorem remap_eq_ok_iff {source : String} {t : Topology} {settings : MapperSettings}
    {costs : CostModel} {out : Mapped} :
    remap source t settings costs = .ok out ↔
      ∃ p r s₁ m s₂ s₃, Program.parse source = .ok p ∧ Gives (collect p) (settings.session t) r s₁ ∧
        Gives Session.place s₁ m s₂ ∧ Gives (emit p r costs) s₂ out s₃ := by
  have hrun (p : Program) : ((run p costs).run.run (settings.session t)).1 = .ok out ↔
      ∃ r s₁ m s₂ s₃, Gives (collect p) (settings.session t) r s₁ ∧ Gives Session.place s₁ m s₂ ∧
        Gives (emit p r costs) s₂ out s₃ := by
    simp only [fst_run_eq_ok_iff, gives_run_iff]
    constructor
    · rintro ⟨s₃, r, s₁, m, s₂, hgives⟩
      exact ⟨r, s₁, m, s₂, s₃, hgives⟩
    · rintro ⟨r, s₁, m, s₂, s₃, hgives⟩
      exact ⟨s₃, r, s₁, m, s₂, hgives⟩
  rw [remap]
  cases Program.parse source with
  | error e => simp
  | ok p => simp [hrun]

/-- The stages of a mapping: the session `s` after the first pass, the placement `m`, and what the
second pass writes from there. -/
structure Stages (p : Program) (t : Topology) (settings : MapperSettings) (costs : CostModel)
    (out : Mapped) (s : Session) (m : Layout) (src : List (Instruction String)) (e : Emission) :
    Prop where
  collected : Gives (collect p) (settings.session t) (.ofProgram p) s
  router : s.router = settings.router
  topology : s.topology = t
  placement : initialPlacement settings.placement s.graph t = .ok m
  valid : Session.Valid { s with placed := some ⟨m, m⟩ }
  circuit : (Registers.ofProgram p).circuit p = .ok src
  emitted : ∃ initial s', Emits costs { s with placed := some ⟨m, m⟩ } src e s' ∧ s'.topology = t ∧
    out = mapped p initial e s'

theorem exists_stages {source : String} {p : Program} {t : Topology} {settings : MapperSettings}
    {costs : CostModel} {out : Mapped} (hp : Program.parse source = .ok p)
    (h : remap source t settings costs = .ok out) :
    ∃ s m src e, Stages p t settings costs out s m src e := by
  obtain ⟨p', r, s, m, s₂, s₃, hp', hcollect, hplace, hemit⟩ := remap_eq_ok_iff.mp h
  obtain rfl := Except.ok.inj (hp.symm.trans hp')
  obtain ⟨rfl, _, -, -, hnoted⟩ := noted_of_gives_collect hcollect
  obtain ⟨hvalid, htopology, -⟩ := placed_of_noted hnoted hplace
  obtain ⟨initial, src, e, -, hsrc, hemits, hout⟩ := gives_emit_iff.mp hemit
  obtain ⟨-, -, hsame, -⟩ := hemits.session hvalid
  have hopen : s.placed = none := by rw [hnoted.frame]; rfl
  have hoptions : s.options = settings.placement := by rw [hnoted.frame]; rfl
  have hrouter : s.router = settings.router := by rw [hnoted.frame]; rfl
  obtain ⟨hm, rfl⟩ := (gives_place_iff hopen).mp hplace
  have hdevice : s.topology = t := htopology
  rw [hoptions, hdevice] at hm
  exact ⟨s, m, src, e, hcollect, hrouter, hdevice, hm, hvalid, hsrc, initial, s₃, hemits,
    hsame.trans htopology, hout⟩

end Pass

end QubitRouting
