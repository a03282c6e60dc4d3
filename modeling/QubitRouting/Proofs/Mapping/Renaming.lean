import Mathlib.Data.List.Find
import Mathlib.Data.List.GetD
import Mathlib.Logic.Equiv.Basic
import QubitRouting.Proofs.Interaction.Renaming
import QubitRouting.Proofs.Mapping.Recovery

/-!
# Circuits with other register names

The quantum registers of a program can be renamed. Two runs, one on the program and one on the
renamed program, then go side by side: operands stand for the renamed names
(`Registers.expandQubits_renamed`), the first pass makes the renamed requests
(`Registers.requests_renamed`), the placement is the same, and the second pass finds every qubit
where it was (`Pass.emits_renamed`). Names go into faults only, so the two runs end with the same
circuit and report, or fail both.

That no two names clash after the renaming is a fact about the texts of operands: the register can
be read off the text of an operand, since a bracket belongs to no identifier. It makes the renaming
of texts injective (`renameText_injective`), which is all that graphs and sessions ask for.
-/

set_option autoImplicit false

namespace QubitRouting

/-! ## Names of qubits -/

/-- Identifiers are renamed to identifiers, different ones to different ones. -/
structure IsRenaming (f : String → String) : Prop where
  isName : ∀ name, IsName name → IsName (f name)
  injective : ∀ name name', IsName name → IsName name' → f name = f name' → name = name'

/-- The identifier at the beginning of a text. -/
def leadingName (text : String) : String :=
  String.ofList (text.toList.takeWhile Token.isIdentifierRest)

/-- What stands behind the identifier. -/
def behindName (text : String) : String :=
  String.ofList (text.toList.dropWhile Token.isIdentifierRest)

open Classical in
/-- The name of a qubit whose register is renamed. A text that does not begin with an identifier is
the name of no qubit, and stays as it is. -/
noncomputable def renameText (f : String → String) (text : String) : String :=
  if IsName (leadingName text) then f (leadingName text) ++ behindName text else text

theorem leadingName_append_behindName (text : String) :
    leadingName text ++ behindName text = text := by
  rw [leadingName, behindName, ← String.ofList_append, List.takeWhile_append_dropWhile,
    String.ofList_toList]

/-- An identifier in front of what stood behind another one is taken off again. -/
theorem split_append {name : String} (h : IsName name) (text : String) :
    leadingName (name ++ behindName text) = name ∧
      behindName (name ++ behindName text) = behindName text := by
  have hnone : ∀ cs : List Char,
      (cs.dropWhile Token.isIdentifierRest).takeWhile Token.isIdentifierRest = [] := by
    intro cs
    induction cs with
    | nil => rfl
    | cons c cs ih => by_cases hc : Token.isIdentifierRest c <;> simp [hc, ih]
  have hname : leadingName (name ++ behindName text) = name := by
    rw [leadingName, behindName, String.toList_append, String.toList_ofList,
      List.takeWhile_append_of_pos h.isIdentifierRest, hnone, List.append_nil, String.ofList_toList]
  refine ⟨hname, ?_⟩
  have hsplit := congrArg String.toList (leadingName_append_behindName (name ++ behindName text))
  rw [hname, String.toList_append, String.toList_append] at hsplit
  exact String.toList_inj.mp (List.append_cancel_left hsplit)

variable {f : String → String}

theorem renameText_empty (f : String → String) : renameText f "" = "" := by
  refine if_neg fun h => ?_
  obtain ⟨c, cs, hchars, -⟩ := h.chars
  cases hchars

theorem split_renameText (hf : IsRenaming f) {text : String} (h : IsName (leadingName text)) :
    leadingName (renameText f text) = f (leadingName text) ∧
      behindName (renameText f text) = behindName text := by
  rw [renameText, if_pos h]
  exact split_append (hf.isName _ h) text

theorem renameText_injective (hf : IsRenaming f) : Function.Injective (renameText f) := by
  intro x y hxy
  by_cases hx : IsName (leadingName x)
  · by_cases hy : IsName (leadingName y)
    · obtain ⟨hnamex, hrestx⟩ := split_renameText hf hx
      obtain ⟨hnamey, hresty⟩ := split_renameText hf hy
      have hname :=
        hf.injective _ _ hx hy (hnamex.symm.trans ((congrArg leadingName hxy).trans hnamey))
      have hrest := hrestx.symm.trans ((congrArg behindName hxy).trans hresty)
      rw [← leadingName_append_behindName x, hname, hrest, leadingName_append_behindName]
    · have hname := (split_renameText hf hx).1
      rw [hxy, renameText, if_neg hy] at hname
      exact absurd (hname ▸ hf.isName _ hx) hy
  · by_cases hy : IsName (leadingName y)
    · have hname := (split_renameText hf hy).1
      rw [← hxy, renameText, if_neg hx] at hname
      exact absurd (hname ▸ hf.isName _ hy) hx
    · rwa [renameText, renameText, if_neg hx, if_neg hy] at hxy

namespace Operand

/-- The operand in the renamed register. -/
def renamed (f : String → String) (o : Operand) : Operand := { o with register := f o.register }

theorem text_renamed {o : Operand} (ho : IsName o.register) :
    (o.renamed f).text = renameText f o.text := by
  have hname : leadingName o.text = o.register := by
    rw [leadingName, takeWhile_toList_text ho, String.ofList_toList]
  have hrest : (behindName o.text).toList = indexText o.index := by
    have hsplit := congrArg String.toList (leadingName_append_behindName o.text)
    rw [hname, String.toList_append, toList_text] at hsplit
    exact List.append_cancel_left hsplit
  rw [renameText, hname, if_pos ho, ← String.toList_inj, toList_text, String.toList_append, hrest]
  rfl

end Operand

/-! ## Programs and instructions -/

namespace RegisterDecl

/-- The declaration of the renamed register. -/
def renamed (f : String → String) (d : RegisterDecl) : RegisterDecl := { d with name := f d.name }

theorem elements_renamed {d : RegisterDecl} (hd : IsName d.name) :
    (d.renamed f).elements = d.elements.map (renameText f) := by
  rw [elements, elements, List.map_map]
  refine List.map_congr_left fun i _ => ?_
  exact Operand.text_renamed (o := ⟨d.name, some i⟩) hd

end RegisterDecl

/-- The statement with its quantum registers renamed. -/
def Statement.renamed (f : String → String) : Statement → Statement
  | .includes path => .includes path
  | .qreg d => .qreg (d.renamed f)
  | .creg d => .creg d
  | .gate call => .gate { call with operands := call.operands.map (·.renamed f) }
  | .measure qubit bit => .measure (qubit.renamed f) bit
  | .reset qubit => .reset (qubit.renamed f)
  | .barrier qubits => .barrier (qubits.map (·.renamed f))

namespace Program

/-- The program with its quantum registers renamed. -/
def renamed (f : String → String) (p : Program) : Program :=
  { p with statements := p.statements.map (·.renamed f) }

/-- What is taken from single statements can be renamed afterwards. -/
theorem filterMap_renamed {α : Type} {take : Statement → Option α} {h : α → α}
    (htake : ∀ st, take (st.renamed f) = (take st).map h) (p : Program) :
    (p.renamed f).statements.filterMap take = (p.statements.filterMap take).map h := by
  rw [renamed, List.filterMap_map, List.map_filterMap]
  exact List.filterMap_congr fun st _ => htake st

theorem qregs_renamed (f : String → String) (p : Program) :
    (p.renamed f).qregs = p.qregs.map (·.renamed f) :=
  filterMap_renamed (fun st => by cases st <;> rfl) p

theorem cregs_renamed (f : String → String) (p : Program) : (p.renamed f).cregs = p.cregs :=
  (filterMap_renamed (h := id) (fun st => by cases st <;> rfl) p).trans (List.map_id _)

theorem includes_renamed (f : String → String) (p : Program) :
    (p.renamed f).includes = p.includes :=
  (filterMap_renamed (h := id) (fun st => by cases st <;> rfl) p).trans (List.map_id _)

end Program

/-- The instruction on other qubits. -/
def Instruction.mapQubits {Q Q' : Type} (h : Q → Q') : Instruction Q → Instruction Q'
  | .creg d => .creg d
  | .gate name params qubits => .gate name params (qubits.map h)
  | .measure qubit bit => .measure (h qubit) bit
  | .reset qubit => .reset (h qubit)
  | .barrier qubits => .barrier (qubits.map h)

theorem Instruction.related_mapQubits {Q Q' P : Type} {h : Q → Q'} {R : Q' → P → Prop}
    {i : Instruction Q}
    {j : Instruction P} : (i.mapQubits h).Related R j ↔ i.Related (fun q p => R (h q) p) j := by
  cases i with
  | creg d => rw [mapQubits, related_creg_iff, related_creg_iff]
  | gate name params qs =>
    rw [mapQubits, related_gate_iff, related_gate_iff]
    simp only [List.forall₂_map_left_iff]
  | measure q bit => rw [mapQubits, related_measure_iff, related_measure_iff]
  | reset q => rw [mapQubits, related_reset_iff, related_reset_iff]
  | barrier qs =>
    rw [mapQubits, related_barrier_iff, related_barrier_iff]
    simp only [List.forall₂_map_left_iff]

theorem Instruction.pair?_mapQubits {Q Q' : Type} (h : Q → Q') (i : Instruction Q) :
    (i.mapQubits h).pair? = i.pair?.map fun c => (h c.1, h c.2) := by
  cases i with
  | gate name params qs =>
    rcases qs with _ | ⟨a, _ | ⟨b, _ | ⟨c, more⟩⟩⟩
    · rfl
    · rfl
    · rfl
    · rfl
  | creg d => rfl
  | measure q bit => rfl
  | reset q => rfl
  | barrier qs => rfl

namespace Expansion

/-- The expansion in other names. -/
def renamed (h : String → String) (e : Expansion) : Expansion := ⟨h e.label, e.names.map h⟩

/-- How many applications there are depends on the sizes of the expansions alone. -/
theorem width_mirrors {es es' : List Expansion}
    (h : es'.map (·.names.length) = es.map (·.names.length)) :
    Mirrors id (width es) (width es') := by
  have hfilter : (es'.filter (·.names.length ≠ 1)).map (·.names.length) =
      (es.filter (·.names.length ≠ 1)).map (·.names.length) := by
    have hsizes (es : List Expansion) : (es.filter (·.names.length ≠ 1)).map (·.names.length) =
        (es.map (·.names.length)).filter (· ≠ 1) := by
      rw [List.filter_map]
      rfl
    rw [hsizes, hsizes, h]
  have hall (es : List Expansion) (n : Nat) :
      es.find? (·.names.length ≠ n) = none ↔ ∀ k ∈ es.map (·.names.length), k = n := by
    simp
  rw [width, width]
  generalize es.filter (·.names.length ≠ 1) = fs at hfilter ⊢
  generalize es'.filter (·.names.length ≠ 1) = fs' at hfilter ⊢
  cases fs with
  | nil =>
    obtain rfl := List.map_eq_nil_iff.mp hfilter
    exact .ok id 1
  | cons e rest =>
    obtain ⟨e', rest', rfl, hlength, hrest⟩ := List.map_eq_cons_iff.mp hfilter
    have hnone : rest'.find? (·.names.length ≠ e'.names.length) = none ↔
        rest.find? (·.names.length ≠ e.names.length) = none := by
      rw [hall, hall, hrest, hlength]
    dsimp only
    cases hfind : rest.find? (·.names.length ≠ e.names.length) with
    | none =>
      rw [hnone.mpr hfind, hlength]
      exact .ok id _
    | some d =>
      cases hfind' : rest'.find? (·.names.length ≠ e'.names.length) with
      | none => exact absurd (hfind.symm.trans (hnone.mp hfind')) (by simp)
      | some d' => exact .error id _ _

theorem pick_renamed {h : String → String} (hempty : h "" = "") (e : Expansion) (i : Nat) :
    (e.renamed h).pick i = h (e.pick i) := by
  obtain ⟨label, names⟩ := e
  have hget (names : List String) : (names.map h).getD i "" = h (names.getD i "") := by
    exact (congrArg _ hempty.symm).trans (List.getD_map names "" h)
  rcases names with _ | ⟨x, _ | ⟨y, more⟩⟩
  · exact hget []
  · rfl
  · exact hget (x :: y :: more)

theorem broadcast_renamed {h : String → String} (hempty : h "" = "") (es : List Expansion) :
    Mirrors (List.map (List.map h)) (broadcast es) (broadcast (es.map (·.renamed h))) := by
  have hwidth : Mirrors id (width es) (width (es.map (·.renamed h))) := by
    refine width_mirrors ?_
    rw [List.map_map]
    exact List.map_congr_left fun e _ => List.length_map h
  refine hwidth.map fun n => ?_
  simp only [id, List.map_map, Function.comp_def, pick_renamed hempty]

end Expansion

namespace Registers

/-- The registers with the quantum ones renamed. -/
def renamed (f : String → String) (r : Registers) : Registers :=
  ⟨r.qregs.map (·.renamed f), r.cregs⟩

theorem ofProgram_renamed (f : String → String) (p : Program) :
    ofProgram (p.renamed f) = (ofProgram p).renamed f := by
  rw [ofProgram, Program.qregs_renamed, Program.cregs_renamed]
  rfl

theorem qubitNames_renamed {r : Registers} (hr : ∀ d ∈ r.qregs, IsName d.name) :
    (r.renamed f).qubitNames = r.qubitNames.map (renameText f) := by
  rw [qubitNames, qubitNames, renamed, List.flatMap_map, List.map_flatMap]
  exact List.flatMap_congr fun d hd => RegisterDecl.elements_renamed (hr d hd)

theorem sizeOf?_renamed (hf : IsRenaming f) {decls : List RegisterDecl}
    (hdecls : ∀ d ∈ decls, IsName d.name) {name : String} (hname : IsName name) :
    sizeOf? (decls.map (·.renamed f)) (f name) = sizeOf? decls name := by
  have hsame :
      ∀ d ∈ decls.reverse, decide ((d.renamed f).name = f name) = decide (d.name = name) := by
    intro d hd
    have hd := hdecls d (List.mem_reverse.mp hd)
    rw [decide_eq_decide]
    exact ⟨hf.injective _ _ hd hname, congrArg f⟩
  rw [sizeOf?, ← List.map_reverse, List.find?_map, Option.map_map,
    sizeOf?, ← List.find?_congr hsame]
  rfl

theorem expandQubits_renamed (hf : IsRenaming f) {r : Registers} (hr : ∀ d ∈ r.qregs, IsName d.name)
    {o : Operand} (ho : IsName o.register) :
    Mirrors (List.map (renameText f)) (r.expandQubits o)
      ((r.renamed f).expandQubits (o.renamed f)) := by
  have hsize : sizeOf? (r.renamed f).qregs (o.renamed f).register = sizeOf? r.qregs o.register :=
    sizeOf?_renamed hf hr ho
  have hindex : (o.renamed f).index = o.index := rfl
  rw [expandQubits, expandQubits, expand, expand, hsize, hindex, Operand.text_renamed ho]
  cases sizeOf? r.qregs o.register with
  | none => exact .ok _ _
  | some size =>
    cases o.index with
    | none =>
      have helements := RegisterDecl.elements_renamed (f := f) (d := ⟨o.register, size⟩) ho
      exact congrArg some helements
    | some i =>
      dsimp only
      split
      · exact .error _ _ _
      · exact .ok _ _

theorem expandQubits_labelled (hf : IsRenaming f) {r : Registers}
    (hr : ∀ d ∈ r.qregs, IsName d.name) {o : Operand} (ho : IsName o.register) :
    Mirrors (Expansion.renamed (renameText f)) (do return ⟨o.text, ← r.expandQubits o⟩)
      (do return ⟨(o.renamed f).text, ← (r.renamed f).expandQubits (o.renamed f)⟩) := by
  refine (expandQubits_renamed hf hr ho).map fun names => ?_
  rw [Operand.text_renamed ho]
  rfl

theorem applications_renamed (hf : IsRenaming f) {r : Registers} (hr : ∀ d ∈ r.qregs, IsName d.name)
    {os : List Operand} (hos : ∀ o ∈ os, IsName o.register) :
    Mirrors (List.map (List.map (renameText f))) (r.applications os)
      ((r.renamed f).applications (os.map (·.renamed f))) := by
  refine Mirrors.bind (.mapM fun o ho => expandQubits_labelled hf hr (hos o ho)) fun es => ?_
  exact Expansion.broadcast_renamed (renameText_empty f) es

theorem measurements_renamed (hf : IsRenaming f) {r : Registers} (hr : ∀ d ∈ r.qregs, IsName d.name)
    {qubit : Operand} (hqubit : IsName qubit.register) (bit : Operand) :
    Mirrors (List.map fun c => (renameText f c.1, c.2)) (r.measurements qubit bit)
      ((r.renamed f).measurements (qubit.renamed f) bit) := by
  refine (expandQubits_renamed hf hr hqubit).bind fun qubits => ?_
  refine (Mirrors.refl (r.expandBits bit)).bind fun bits => ?_
  rw [Operand.text_renamed hqubit]
  have hwidth : Mirrors id (Expansion.width [⟨qubit.text, qubits⟩, ⟨bit.text, bits⟩])
      (Expansion.width [⟨renameText f qubit.text, qubits.map (renameText f)⟩,
        ⟨bit.text, bits⟩]) := by
    refine Expansion.width_mirrors ?_
    simp only [List.map_cons, List.length_map]
  refine hwidth.map fun n => ?_
  simp only [List.map_map]
  refine List.map_congr_left fun i _ => ?_
  exact Prod.ext (Expansion.pick_renamed (renameText_empty f) ⟨qubit.text, qubits⟩ i) rfl

/-- The instructions of a renamed statement are the renamed instructions of the statement. -/
theorem instructions_renamed (hf : IsRenaming f) {r : Registers} (hr : ∀ d ∈ r.qregs, IsName d.name)
    {st : Statement} (hst : st.Legible) :
    Mirrors (List.map (Instruction.mapQubits (renameText f))) (r.instructions st)
      ((r.renamed f).instructions (st.renamed f)) := by
  cases st with
  | includes path => exact .ok _ _
  | qreg d => exact .ok _ _
  | creg d => exact .ok _ _
  | gate call =>
    refine (applications_renamed hf hr fun o ho => (hst.operands o ho).register).map fun apps => ?_
    simp only [List.map_map]
    rfl
  | measure qubit bit =>
    refine (measurements_renamed hf hr hst.1.register bit).map fun pairs => ?_
    simp only [List.map_map]
    rfl
  | reset qubit =>
    refine (expandQubits_renamed hf hr hst.register).map fun names => ?_
    simp only [List.map_map]
    rfl
  | barrier qubits =>
    refine (Mirrors.mapM fun o ho => expandQubits_renamed hf hr (hst o ho).register).map
      fun names => ?_
    rw [← List.map_flatten]
    rfl

end Registers

/-! ## The first pass -/

open InteractionGraph (Request)

theorem Statement.declared_renamed {st : Statement} (hst : st.Legible) :
    (st.renamed f).declared = st.declared.map (renameText f) := by
  cases st with
  | qreg d => exact RegisterDecl.elements_renamed hst.name
  | includes path => rfl
  | creg d => rfl
  | gate call => rfl
  | measure qubit bit => rfl
  | reset qubit => rfl
  | barrier qubits => rfl

theorem Instruction.requests_mapQubits (h : String → String) (i : Instruction String) :
    (i.mapQubits h).requests = i.requests.map (·.renamed h) := by
  have hdeclared (names : List String) :
      (names.map h).map Request.addQubit = (names.map Request.addQubit).map (·.renamed h) := by
    simp only [List.map_map]
    rfl
  cases i with
  | creg d =>
    simp only [mapQubits, requests, List.map_map]
    rfl
  | gate name params names =>
    rcases names with _ | ⟨a, _ | ⟨b, _ | ⟨c, more⟩⟩⟩
    · rfl
    · rfl
    · rfl
    · exact hdeclared (a :: b :: c :: more)
  | measure qubit bit => rfl
  | reset qubit => rfl
  | barrier names => exact hdeclared names

theorem Registers.requests_renamed (hf : IsRenaming f) {r : Registers}
    (hr : ∀ d ∈ r.qregs, IsName d.name) {st : Statement} (hst : st.Legible) :
    Mirrors (List.map (Request.renamed (renameText f))) (r.requests st)
      ((r.renamed f).requests (st.renamed f)) := by
  refine (instructions_renamed hf hr hst).map fun is => ?_
  rw [Statement.declared_renamed hst, List.map_append, List.map_flatMap, List.flatMap_map]
  simp only [Instruction.requests_mapQubits, List.map_map]
  rfl

/-- The session with other names of qubits. -/
def Session.renamed (s : Session) (h : String → String) : Session :=
  { s with graph := s.graph.renamed h }

namespace Pass

variable {h : String → String} {s s' : Session} {costs : CostModel}

theorem asked_renamed (hh : Function.Injective h) (s : Session) (cs : List Request) :
    asked (s.renamed h) (cs.map (·.renamed h)) = (asked s cs).renamed h := by
  rw [asked, Session.renamed, InteractionGraph.afterAll_renamed hh]
  rfl

/-! ## The second pass -/

theorem sits_renamed (hh : Function.Injective h) {name : String} {q : PhysicalQubit} :
    Sits (s.renamed h) (h name) q ↔ Sits s name q := by
  rw [Sits, Session.whereIs, Session.renamed, InteractionGraph.named?_renamed hh]
  rfl

theorem related_renamed (hh : Function.Injective h) {i : Instruction String}
    {j : Instruction PhysicalQubit} :
    (i.mapQubits h).Related (Sits (s.renamed h)) j ↔ i.Related (Sits s) j := by
  have hsits : (fun name q => Sits (s.renamed h) (h name) q) = Sits s := by
    funext name q
    exact propext (sits_renamed hh)
  rw [Instruction.related_mapQubits, hsits]

theorem swapsBetween_renamed (hh : Function.Injective h) {a b : String} {placed : Placed}
    {swaps : List Swap} :
    (s.renamed h).swapsBetween (h a) (h b) = .ok (placed, swaps) ↔
      s.swapsBetween a b = .ok (placed, swaps) := by
  rw [Session.swapsBetween_eq_ok_iff, Session.swapsBetween_eq_ok_iff]
  simp only [Session.renamed, InteractionGraph.named?_renamed hh, InteractionGraph.swapsFor_renamed]

theorem approached_renamed (hh : Function.Injective h) {i : Instruction String}
    {swaps : List Swap} :
    Approached (s.renamed h) (i.mapQubits h) swaps s' ↔
      ∃ s₁, Approached s i swaps s₁ ∧ s' = s₁.renamed h := by
  cases hpair : i.pair? with
  | none =>
    have hnone : (i.mapQubits h).pair? = none := by
      rw [Instruction.pair?_mapQubits, hpair, Option.map_none]
    simp only [approached_other_iff hnone, approached_other_iff hpair]
    constructor
    · rintro ⟨hswaps, hs'⟩
      exact ⟨s, ⟨hswaps, rfl⟩, hs'⟩
    · rintro ⟨_, ⟨hswaps, rfl⟩, hs'⟩
      exact ⟨hswaps, hs'⟩
  | some c =>
    obtain ⟨name, params, rfl⟩ := Instruction.pair?_eq_some_iff.mp hpair
    simp only [Instruction.mapQubits, List.map_cons, List.map_nil, approached_gate_iff,
      swapsBetween_renamed hh]
    constructor
    · rintro ⟨placed, hswaps, hs'⟩
      exact ⟨s.routed placed swaps, ⟨placed, hswaps, rfl⟩, hs'⟩
    · rintro ⟨_, ⟨placed, hswaps, rfl⟩, hs'⟩
      exact ⟨placed, hswaps, hs'⟩

theorem emits_renamed (hh : Function.Injective h) {src : List (Instruction String)} {e : Emission} :
    Emits costs (s.renamed h) (src.map (·.mapQubits h)) e s' ↔
      ∃ s₁, Emits costs s src e s₁ ∧ s' = s₁.renamed h := by
  induction src generalizing s e with
  | nil =>
    rw [List.map_nil, emits_nil]
    simp only [emits_nil]
    constructor
    · rintro ⟨he, hs⟩
      exact ⟨s, ⟨he, rfl⟩, hs⟩
    · rintro ⟨_, ⟨he, rfl⟩, hs⟩
      exact ⟨he, hs⟩
  | cons i src ih =>
    rw [List.map_cons, emits_cons]
    constructor
    · rintro ⟨swaps, j, s₁, e', happ, hij, hrest, he⟩
      obtain ⟨s₂, happ₂, rfl⟩ := (approached_renamed hh).mp happ
      obtain ⟨s₃, hrest, hs'⟩ := ih.mp hrest
      exact ⟨s₃, emits_cons.mpr ⟨swaps, j, s₂, e', happ₂, (related_renamed hh).mp hij, hrest,
        he⟩, hs'⟩
    · rintro ⟨s₃, hemits, hs'⟩
      obtain ⟨swaps, j, s₂, e', happ, hij, hrest, he⟩ := emits_cons.mp hemits
      exact ⟨swaps, j, s₂.renamed h, e', (approached_renamed hh).mpr ⟨s₂, happ, rfl⟩,
        (related_renamed hh).mpr hij, ih.mpr ⟨s₃, hrest, hs'⟩, he⟩

/-! ## Both passes -/

section Program

variable {p : Program} {t : Topology} {settings : MapperSettings}

theorem legible_qregs (hp : ∀ st ∈ p.statements, st.Legible) :
    ∀ d ∈ (Registers.ofProgram p).qregs, IsName d.name := by
  intro d hd
  obtain ⟨st, hst, heq⟩ := List.mem_filterMap.mp hd
  split at heq
  · obtain rfl := Option.some.inj heq
    exact (hp _ hst).name
  · cases heq

theorem gives_collect_renamed (hf : IsRenaming f) (hp : ∀ st ∈ p.statements, st.Legible)
    {r : Registers} :
    Gives (collect (p.renamed f)) (settings.session t) r s' ↔
      ∃ s₁, Gives (collect p) (settings.session t) (.ofProgram p) s₁ ∧
        r = .ofProgram (p.renamed f) ∧ s' = s₁.renamed (renameText f) := by
  have hinj := renameText_injective hf
  have hrequests := Mirrors.gather fun st hst =>
    Registers.requests_renamed hf (legible_qregs hp) (hp st hst)
  have hplain (cs : List Request) :
      (∀ c ∈ cs.map (·.renamed (renameText f)), c.Plain) ↔ ∀ c ∈ cs, c.Plain := by
    simp only [List.forall_mem_map, Request.plain_renamed hinj]
  -- a fresh session has no names that could be renamed
  have hfresh : (settings.session t).renamed (renameText f) = settings.session t := by
    simp [Session.renamed, MapperSettings.session, Session.new, InteractionGraph.renamed,
      InteractionGraph.empty]
  have hasked (cs : List Request) : asked (settings.session t) (cs.map (·.renamed (renameText f))) =
      (asked (settings.session t) cs).renamed (renameText f) := by
    rw [← asked_renamed hinj, hfresh]
  simp only [gives_collect_fresh_iff, Registers.ofProgram_renamed, true_and]
  constructor
  · rintro ⟨hr, cs', hcs', hplain', rfl⟩
    obtain ⟨cs, hcs, rfl⟩ := hrequests.ok_iff.mp hcs'
    exact ⟨_, ⟨cs, hcs, (hplain cs).mp hplain', rfl⟩, hr, hasked cs⟩
  · rintro ⟨_, ⟨cs, hcs, hplain', rfl⟩, hr, rfl⟩
    exact ⟨hr, _, hrequests.ok_iff.mpr ⟨cs, hcs, rfl⟩, (hplain cs).mpr hplain', (hasked cs).symm⟩

theorem gives_place_renamed (h : String → String) (hopen : s.placed = none) {m : Layout} :
    Gives Session.place (s.renamed h) m s' ↔
      ∃ s₁, Gives Session.place s m s₁ ∧ s' = s₁.renamed h := by
  have hplacement : initialPlacement s.options (s.renamed h).graph s.topology =
      initialPlacement s.options s.graph s.topology :=
    (s.graph.alike_renamed h).initialPlacement s.options s.topology
  have hopen' : (s.renamed h).placed = none := hopen
  rw [gives_place_iff hopen']
  simp only [gives_place_iff hopen]
  constructor
  · rintro ⟨hm, hs'⟩
    exact ⟨_, ⟨hplacement.symm.trans hm, rfl⟩, hs'⟩
  · rintro ⟨_, ⟨hm, rfl⟩, hs'⟩
    exact ⟨hplacement.trans hm, hs'⟩

theorem mapped_renamed (p : Program) (initial : List PhysicalQubit) (e : Emission) (s : Session) :
    mapped (p.renamed f) initial e (s.renamed h) = mapped p initial e s := by
  have hmetrics : (s.renamed h).metrics = s.metrics := by
    simp only [Session.metrics, Session.renamed, InteractionGraph.size_renamed]
  rw [mapped, Program.includes_renamed, hmetrics]
  rfl

theorem gives_emit_renamed (hf : IsRenaming f) (hp : ∀ st ∈ p.statements, st.Legible)
    {out : Mapped} :
    Gives (emit (p.renamed f) (.ofProgram (p.renamed f)) costs) (s.renamed (renameText f)) out s' ↔
      ∃ s₁, Gives (emit p (.ofProgram p) costs) s out s₁ ∧ s' = s₁.renamed (renameText f) := by
  have hinj := renameText_injective hf
  have hcircuit :
      Mirrors (List.map (Instruction.mapQubits (renameText f))) ((Registers.ofProgram p).circuit p)
      (((Registers.ofProgram p).renamed f).circuit (p.renamed f)) :=
    Mirrors.gather fun st hst => Registers.instructions_renamed hf (legible_qregs hp) (hp st hst)
  have hinitial (initial : List PhysicalQubit) :
      List.Forall₂ (Sits (s.renamed (renameText f))) ((Registers.ofProgram p).renamed f).qubitNames
        initial ↔
        List.Forall₂ (Sits s) (Registers.ofProgram p).qubitNames initial := by
    rw [Registers.qubitNames_renamed (legible_qregs hp), List.forall₂_map_left_iff]
    simp only [sits_renamed hinj]
  simp only [gives_emit_iff, Registers.ofProgram_renamed, hinitial]
  constructor
  · rintro ⟨initial, src', e, hsits, hsrc', hemits, rfl⟩
    obtain ⟨src, hsrc, rfl⟩ := hcircuit.ok_iff.mp hsrc'
    obtain ⟨s₁, hemits₁, rfl⟩ := (emits_renamed hinj).mp hemits
    exact ⟨s₁, ⟨initial, src, e, hsits, hsrc, hemits₁, mapped_renamed p initial e s₁⟩, rfl⟩
  · rintro ⟨s₁, ⟨initial, src, e, hsits, hsrc, hemits, rfl⟩, rfl⟩
    exact ⟨initial, _, e, hsits, hcircuit.ok_iff.mpr ⟨src, hsrc, rfl⟩,
      (emits_renamed hinj).mpr ⟨s₁, hemits, rfl⟩, (mapped_renamed p initial e s₁).symm⟩

/-- The runs on the renamed program are the runs on the program, up to the names in the session. -/
theorem gives_run_renamed (hf : IsRenaming f) (hp : ∀ st ∈ p.statements, st.Legible)
    {out : Mapped} :
    Gives (run (p.renamed f) costs) (settings.session t) out s' ↔
      ∃ s₁, Gives (run p costs) (settings.session t) out s₁ ∧ s' = s₁.renamed (renameText f) := by
  have hopen : ∀ {r s₁}, Gives (collect p) (settings.session t) r s₁ →
      r = .ofProgram p ∧ s₁.placed = none := by
    intro r s₁ hcollect
    obtain ⟨rfl, cs, -, -, rfl⟩ := gives_collect_fresh_iff.mp hcollect
    exact ⟨rfl, rfl⟩
  simp only [gives_run_iff, gives_collect_renamed hf hp]
  constructor
  · rintro ⟨_, _, m, _, ⟨s₁, hcollect, rfl, rfl⟩, hplace, hemit⟩
    obtain ⟨s₂, hplace₂, rfl⟩ := (gives_place_renamed _ (hopen hcollect).2).mp hplace
    obtain ⟨s₃, hemit₃, rfl⟩ := (gives_emit_renamed hf hp).mp hemit
    exact ⟨s₃, ⟨_, s₁, m, s₂, hcollect, hplace₂, hemit₃⟩, rfl⟩
  · rintro ⟨s₃, ⟨r, s₁, m, s₂, hcollect, hplace, hemit⟩, rfl⟩
    obtain ⟨rfl, hopen₁⟩ := hopen hcollect
    exact ⟨_, _, m, _, ⟨s₁, hcollect, rfl, rfl⟩,
      (gives_place_renamed _ hopen₁).mpr ⟨s₂, hplace, rfl⟩,
      (gives_emit_renamed hf hp).mpr ⟨s₃, hemit, rfl⟩⟩

end Program

/-- **Names of quantum registers do not matter**: a parsed program and the same program with its
quantum registers renamed, in declarations and operands, are mapped to the same circuit with the
same report, or fail both. -/
theorem run_renamed {source : String} {p : Program} (hp : Program.parse source = .ok p)
    {f : String → String} (hf : IsRenaming f) (t : Topology) (settings : MapperSettings)
    (costs : CostModel) (out : Mapped) :
    ((run (p.renamed f) costs).run.run (settings.session t)).1 = .ok out ↔
      ((run p costs).run.run (settings.session t)).1 = .ok out := by
  rw [fst_run_eq_ok_iff, fst_run_eq_ok_iff]
  simp only [gives_run_renamed hf (Program.legible_of_parse hp).2]
  constructor
  · rintro ⟨_, s₁, hgives, -⟩
    exact ⟨s₁, hgives⟩
  · rintro ⟨s₁, hgives⟩
    exact ⟨_, s₁, hgives, rfl⟩

/-- Two names can be exchanged. -/
theorem isRenaming_swap {a b : String} (ha : IsName a) (hb : IsName b) :
    IsRenaming (Equiv.swap a b) where
  isName name hname := by
    rw [Equiv.swap_apply_def]
    split
    · exact hb
    · split
      · exact ha
      · exact hname
  injective _ _ _ _ heq := (Equiv.swap a b).injective heq

/-- A declared register and a qubit in no register exchange their names. -/
theorem run_renamed_swapped :
    ∃ p out, Program.parse "OPENQASM 2.0; qreg q[2]; cx q[0],r; cx r,q[1]; cx q[0],q[1];" = .ok p ∧
      IsRenaming (Equiv.swap "q" "r") ∧
      (p.renamed (Equiv.swap "q" "r")).statements.head? = some (.qreg ⟨"r", 2⟩) ∧
      ((run p {}).run.run (({} : MapperSettings).session (.linear 3))).1 = .ok out ∧
      ((run (p.renamed (Equiv.swap "q" "r")) {}).run.run
      (({} : MapperSettings).session (.linear 3))).1 =
        .ok out := by
  have hf : IsRenaming (Equiv.swap "q" "r") :=
    isRenaming_swap ⟨⟨'q', [], rfl, by decide, rfl⟩, by decide⟩
      ⟨⟨'r', [], rfl, by decide, rfl⟩, by decide⟩
  let p : Program := ⟨"2.0", [.qreg ⟨"q", 2⟩, .gate ⟨"cx", none, [⟨"q", some 0⟩, ⟨"r", none⟩], 1⟩,
    .gate ⟨"cx", none, [⟨"r", none⟩, ⟨"q", some 1⟩], 1⟩,
    .gate ⟨"cx", none, [⟨"q", some 0⟩, ⟨"q", some 1⟩], 1⟩]⟩
  have hp :
      Program.parse "OPENQASM 2.0; qreg q[2]; cx q[0],r; cx r,q[1]; cx q[0],q[1];" = .ok p := by
    refine toOption_eq_some_iff.mp ?_
    decide +kernel
  obtain ⟨out, hout⟩ := Option.isSome_iff_exists.mp
    (by decide +kernel :
      ((run p {}).run.run (({} : MapperSettings).session (.linear 3))).1.toOption.isSome)
  have hrun := toOption_eq_some_iff.mp hout
  exact ⟨p, out, hp, hf, by decide +kernel, hrun, (run_renamed hp hf _ _ _ out).mpr hrun⟩

end Pass

end QubitRouting
