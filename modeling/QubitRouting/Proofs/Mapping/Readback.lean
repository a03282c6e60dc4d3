import QubitRouting.Proofs.Circuit.Writing
import QubitRouting.Proofs.Mapping.Compliance

/-!
# Reading mapped circuits back

A mapped circuit is written as a source text, which the parser may be given again. It takes the text
line by line: what it reads for an instruction is the statement that the instruction denotes
(`Instruction.Denotes`). Two things can go wrong: a barrier on no qubit is written without operands,
which no statement allows, and an index has 32 bits, while the number of a qubit may be any.
`MappedCircuit.parse_text_iff` says that nothing else does.
-/

set_option autoImplicit false

namespace QubitRouting

open Lexeme

/-- The qubit as an operand over the device register. -/
def PhysicalQubit.operand (q : PhysicalQubit) : Operand := ⟨deviceRegister, some q.id⟩

theorem isName_deviceRegister : IsName deviceRegister :=
  ⟨⟨'Q', [], rfl, by decide, by decide⟩, by decide⟩

theorem PhysicalQubit.inRange_operand_iff {q : PhysicalQubit} :
    q.operand.InRange ↔ q.id < Parser.indexLimit := by
  simp [Operand.InRange, operand]

theorem PhysicalQubit.legible_operand {q : PhysicalQubit} (h : q.id < Parser.indexLimit) :
    q.operand.Legible :=
  ⟨isName_deviceRegister, inRange_operand_iff.mpr h⟩

namespace Instruction

/-- What an instruction of a parsed program has besides its qubits. -/
def Legible {Q : Type} : Instruction Q → Prop
  | creg d => d.Legible
  | gate name params qs =>
    IsName name ∧ name ∉ Parser.unsupportedWords ∧
      (∀ text, params = some text → IsParams text.toList) ∧ qs ≠ [] ∧ qs.length ≤ maxGateOperands
  | measure _ bit => ∃ o : Operand, o.Legible ∧ o.text = bit
  | reset _ | barrier _ => True

/-- What an instruction needs besides to be read back. -/
structure Readable (i : Instruction PhysicalQubit) : Prop where
  nonempty : i ≠ .barrier []
  inRange : ∀ q ∈ i.qubits, q.id < Parser.indexLimit

/-- The statement that an instruction is written as. -/
inductive Denotes : Instruction PhysicalQubit → Statement → Prop where
  | creg (d : RegisterDecl) : Denotes (.creg d) (.creg d)
  | gate (name : String) (params : Option String) (qs : List PhysicalQubit) (line : Nat) :
      Denotes (.gate name params qs) (.gate ⟨name, params, qs.map (·.operand), line⟩)
  | measure (q : PhysicalQubit) (o : Operand) : Denotes (.measure q o.text) (.measure q.operand o)
  | reset (q : PhysicalQubit) : Denotes (.reset q) (.reset q.operand)
  | barrier (qs : List PhysicalQubit) : Denotes (.barrier qs) (.barrier (qs.map (·.operand)))

theorem labels_eq (qs : List PhysicalQubit) :
    labels qs = String.intercalate "," ((qs.map (·.operand)).map (·.text)) := by
  rw [labels, List.map_map]
  rfl

theorem toList_text_gate (name : String) (params : Option String) (qs : List PhysicalQubit) :
    (gate name params qs).text.toList = name.toList ++ (paramsText params ++ ([' '] ++
      ((String.intercalate "," ((qs.map (·.operand)).map (·.text))).toList ++ [';']))) := by
  rw [← labels_eq]
  cases params <;> simp [text, paramsText, toString]

/-- An instruction is read as the statement that it denotes. -/
theorem Legible.isLine {i : Instruction PhysicalQubit} (h : i.Legible) (hi : i.Readable) :
    IsLine i.Denotes i.text.toList := by
  have hoperands {qs : List PhysicalQubit} (hqs : ∀ q ∈ qs, q.id < Parser.indexLimit) :
      ∀ o ∈ qs.map (·.operand), o.Legible := by
    intro o ho
    obtain ⟨q, hq, rfl⟩ := List.mem_map.mp ho
    exact PhysicalQubit.legible_operand (hqs q hq)
  obtain ⟨hne, hq⟩ := hi
  cases i with
  | creg d =>
    have htext : (creg d).text.toList = ("creg " ++ elementName d.name d.size ++ ";").toList := by
      simp [text, elementName, toString]
    rw [htext]
    exact (isLine_creg h).imp fun st hst => hst ▸ .creg d
  | gate name params qs =>
    obtain ⟨hname, hsupported, hparams, hsome, hfew⟩ := h
    have hos : ∀ o ∈ qs.map (·.operand), o.Legible := hoperands hq
    have hline :=
      isLine_gate hname hsupported hparams (by simpa using hsome) (by simpa using hfew) hos
    rw [toList_text_gate]
    refine hline.imp fun st hst => ?_
    obtain ⟨line, rfl⟩ := hst
    exact .gate name params qs line
  | measure q bit =>
    obtain ⟨o, ho, rfl⟩ := h
    have hqubit := PhysicalQubit.legible_operand (hq q (by simp [qubits]))
    exact (isLine_measure hqubit ho).imp fun st hst => hst ▸ .measure q o
  | reset q =>
    have hqubit := PhysicalQubit.legible_operand (hq q (by simp [qubits]))
    exact (isLine_reset hqubit).imp fun st hst => hst ▸ .reset q
  | barrier qs =>
    have hsome : qs.map (·.operand) ≠ [] := by
      intro hnil
      exact hne (congrArg _ (List.map_eq_nil_iff.mp hnil))
    have hline := isLine_barrier hsome (hoperands hq)
    rw [← labels_eq] at hline
    exact hline.imp fun st hst => hst ▸ .barrier qs

/-- Any other instruction is not read. -/
theorem Legible.noLine {i : Instruction PhysicalQubit} (h : i.Legible) (hi : ¬i.Readable) :
    NoLine i.text.toList := by
  by_cases hne : i = .barrier []
  · subst hne
    exact noLine_barrier_nil
  obtain ⟨q, hq, hlarge⟩ : ∃ q ∈ i.qubits, ¬q.operand.InRange := by
    by_contra hall
    simp only [not_exists, not_and, not_not, PhysicalQubit.inRange_operand_iff] at hall
    exact hi ⟨hne, hall⟩
  have hnames (qs : List PhysicalQubit) : ∀ o ∈ qs.map (·.operand), IsName o.register := by
    intro o ho
    obtain ⟨q, -, rfl⟩ := List.mem_map.mp ho
    exact isName_deviceRegister
  cases i with
  | creg d => cases hq
  | gate name params qs =>
    obtain ⟨hname, -, hparams, -, -⟩ := h
    rw [toList_text_gate]
    exact noLine_gate hname hparams (hnames qs) ⟨_, List.mem_map_of_mem hq, hlarge⟩
  | measure q' bit =>
    obtain ⟨o, ho, rfl⟩ := h
    obtain rfl := List.mem_singleton.mp hq
    have hline := noLine_measure isName_deviceRegister ho hlarge
    exact hline
  | reset q' =>
    obtain rfl := List.mem_singleton.mp hq
    have hline := noLine_reset isName_deviceRegister hlarge
    exact hline
  | barrier qs =>
    have hline := noLine_barrier (hnames qs) ⟨_, List.mem_map_of_mem hq, hlarge⟩
    rw [← labels_eq] at hline
    exact hline

end Instruction

/-! ## The text of a mapped circuit -/

theorem gap_lineEnd : Gap false ['\n'] := .blank (by decide) .nil

/-- Lines that are all read. -/
theorem reads_lines {α : Type} {f : α → List Char} {P : α → Statement → Prop} {xs : List α}
    (h : ∀ x ∈ xs, IsLine (P x) (f x)) (k : List Char) (offset line : Nat) :
    ∃ front offset' line', List.Forall₂ P xs front ∧
      ∀ sts, Reads offset line (xs.flatMap (fun x => '\n' :: f x) ++ k) sts ↔
        ∃ more, Reads offset' line' k more ∧ sts = front ++ more := by
  induction xs generalizing offset line with
  | nil => exact ⟨[], offset, line, .nil, fun sts => by simp⟩
  | cons x xs ih =>
    obtain ⟨hx, hxs⟩ := List.forall_mem_cons.mp h
    obtain ⟨st, offset₁, line₁, hst, hfirst⟩ :=
      hx.reads gap_lineEnd (xs.flatMap (fun x => '\n' :: f x) ++ k) offset line
    obtain ⟨front, offset', line', hfront, hmore⟩ := ih hxs offset₁ line₁
    refine ⟨st :: front, offset', line', .cons hst hfront, fun sts => ?_⟩
    rw [List.flatMap_cons, List.append_assoc]
    refine (hfirst sts).trans ?_
    simp only [hmore]
    constructor
    · intro ⟨_, ⟨more, hmore, rfl⟩, hsts⟩
      exact ⟨more, hmore, hsts⟩
    · intro ⟨more, hmore, hsts⟩
      exact ⟨_, ⟨more, hmore, rfl⟩, hsts⟩

/-- Lines are not read if one of them is not. -/
theorem not_reads_lines {α : Type} {f : α → List Char} {P : α → Statement → Prop} {xs : List α}
    (h : ∀ x ∈ xs, IsLine (P x) (f x) ∨ NoLine (f x)) (hno : ∃ x ∈ xs, NoLine (f x))
    (k : List Char) (offset line : Nat) (sts : List Statement) :
    ¬Reads offset line (xs.flatMap (fun x => '\n' :: f x) ++ k) sts := by
  induction xs generalizing offset line sts with
  | nil =>
    obtain ⟨x, hx, -⟩ := hno
    exact absurd hx List.not_mem_nil
  | cons x xs ih =>
    obtain ⟨hx, hxs⟩ := List.forall_mem_cons.mp h
    rw [List.flatMap_cons, List.append_assoc]
    intro hreads
    by_cases hfirst : NoLine (f x)
    · exact hfirst.not_reads gap_lineEnd _ offset line sts hreads
    · obtain ⟨_, offset', line', -, hreads'⟩ := (hx.resolve_right hfirst).reads gap_lineEnd
        (xs.flatMap (fun x => '\n' :: f x) ++ k) offset line
      obtain ⟨more, hmore, -⟩ := (hreads' sts).mp hreads
      obtain ⟨y, hy, hno⟩ := hno
      rcases List.mem_cons.mp hy with rfl | hy
      · exact hfirst hno
      · exact ih hxs ⟨y, hy, hno⟩ offset' line' more hmore

theorem reads_lineEnd {offset line : Nat} {sts : List Statement} :
    Reads offset line ['\n'] sts ↔ sts = [] := by
  have hscan : scanFrom offset line ['\n'] = [] := scanFrom_gap (by decide) offset line
  simp only [Reads, hscan, Parser.tokens, Except.ok.injEq]
  constructor
  · rintro ⟨ls, hls, hsts⟩
    subst hls
    cases hsts with
    | nil => rfl
    | cons h _ => exact absurd h Parser.not_statementAt_nil
  · intro hsts
    exact ⟨[], rfl, hsts ▸ .nil⟩

namespace MappedCircuit

/-- The declaration of the device register, and the instructions. -/
def registerAndInstructions (c : MappedCircuit) : List Char :=
  ['\n'] ++ ("qreg " ++ elementName deviceRegister c.size.toNat ++ ";").toList ++
    (c.instructions.flatMap (fun i => '\n' :: i.text.toList) ++ ['\n'])

/-- The text behind the version. -/
def body (c : MappedCircuit) : List Char :=
  c.includes.flatMap (fun path => '\n' :: ("include \"" ++ path ++ "\";").toList) ++
    c.registerAndInstructions

/-- The comment with the initial places. -/
def header (c : MappedCircuit) : List Char :=
  (String.join (initialMarker :: c.initial.map (" " ++ ·.label))).toList ++ ['\n', '\n']

/-- Line ends behind the lines, or in front of them. -/
theorem cons_flatMap_lineEnd {α : Type} (f : α → List Char) (xs : List α) (k : List Char) :
    '\n' :: (xs.flatMap (fun x => f x ++ ['\n']) ++ k) =
      xs.flatMap (fun x => '\n' :: f x) ++ '\n' :: k := by
  induction xs with
  | nil => rfl
  | cons x xs ih =>
    rw [List.flatMap_cons, List.flatMap_cons, List.append_assoc, List.append_assoc,
      List.append_assoc, List.singleton_append, ih]
    rfl

theorem body_eq (c : MappedCircuit) : c.body =
    '\n' :: (c.includes.flatMap (fun path => ("include \"" ++ path ++ "\";").toList ++ ['\n']) ++
      (("qreg " ++ elementName deviceRegister c.size.toNat ++ ";").toList ++
        '\n' :: c.instructions.flatMap (fun i => i.text.toList ++ ['\n']))) := by
  have hinstructions := cons_flatMap_lineEnd (fun i => i.text.toList) c.instructions []
  rw [cons_flatMap_lineEnd, body, registerAndInstructions, ← hinstructions, List.append_nil]
  rfl

theorem toList_text (c : MappedCircuit) : c.text.toList =
    c.header ++ ("OPENQASM".toList ++ ([' '] ++ (c.version.toList ++ (';' :: c.body)))) := by
  have hlines : c.text.toList = c.lines.flatMap (fun line => line.toList ++ ['\n']) := by
    simp [text, List.flatMap_map]
  rw [hlines, body_eq]
  simp [lines, header, elementName, toString, List.flatMap_map]

/-- The labels of qubits have no line ends. -/
theorem gap_header (c : MappedCircuit) : Gap false c.header := by
  have hlabel (q : PhysicalQubit) : '\n' ∉ q.label.toList := by
    have hdigits : '\n' ∉ Nat.toDigits 10 q.id := fun h =>
      absurd (Nat.isDigit_of_mem_toDigits (by decide) (by decide) h) (by decide)
    simp [PhysicalQubit.label, deviceRegister, toString, hdigits]
  have hwithin {cs : List Char} (h : '\n' ∉ cs) : Gap true (cs ++ ['\n', '\n']) := by
    induction cs with
    | nil => exact .lineEnd gap_lineEnd
    | cons c cs ih =>
      obtain ⟨hc, hcs⟩ := not_or.mp (List.mem_cons.not.mp h)
      exact .within (Ne.symm hc) (ih hcs)
  have hplaces : '\n' ∉ 'i' :: (String.join (c.initial.map (" " ++ ·.label))).toList := by
    simp [hlabel]
  have hheader : c.header =
      '/' :: '/' :: ('i' :: (String.join (c.initial.map (" " ++ ·.label))).toList ++
        ['\n', '\n']) := by
    simp [header, initialMarker]
  rw [hheader]
  exact .slashes (hwithin hplaces)

/-- A circuit that was mapped from a source. -/
structure Legible (c : MappedCircuit) : Prop where
  version : IsVersion c.version
  includes : ∀ path ∈ c.includes, '"' ∉ path.toList
  instructions : ∀ i ∈ c.instructions, i.Legible

/-- A version is read as a number that stands for it. -/
theorem exists_number {v : String} (hv : IsVersion v) :
    Parser.Supported v ∧ ∃ t, Token.ofText? v.toList = some t ∧ Parser.versionText t = some v := by
  obtain ⟨d, hd, rfl⟩ := hv
  have hall : ∀ d < 10, ['2', '.'] <+: (s!"2.{d}").toList ∧
      (Token.ofText? (s!"2.{d}").toList).bind Parser.versionText = some s!"2.{d}" := by
    decide +kernel
  exact ⟨(hall d hd).1, Option.bind_eq_some_iff.mp (hall d hd).2⟩

theorem cut_version {v : String} (hv : IsVersion v) {k : List Char} (hk : Neutral k) :
    Cut v.toList k := by
  obtain ⟨d, hd, rfl⟩ := hv
  have htext : (s!"2.{d}").toList = '2' :: '.' :: (toString d).toList := by
    simp [toString]
  have hall :
      ∀ d < 10, extent '2' ('.' :: (toString d).toList) = ('.' :: (toString d).toList).length := by
    decide +kernel
  rw [htext]
  refine cut_cons (by decide) (by decide) ?_
  rw [extent_append (by decide) hk, hall d hd]

/-- Behind its version, a mapped circuit is read statement by statement. -/
theorem parse_text {c : MappedCircuit} (hc : c.Legible) :
    ∃ offset line, ∀ q, Program.parse c.text = .ok q ↔
      q.version = c.version ∧ Reads offset line c.body q.statements := by
  obtain ⟨hsupported, t, ht, hversion⟩ := exists_number hc.version
  have hend := composed_semicolon False c.body
  have hnumber := hend.cons gap_blank (cut_version hc.version (neutral_of_mark (by decide) _)) ht
  have hall := hnumber.keyword .openqasm c.gap_header (neutral_blank _)
  obtain ⟨front, offset, line, -, htokens, hscan⟩ := hall.tokens_scanFrom 0 1
  refine ⟨offset, line, fun q => ?_⟩
  have htext : c.text.toList = c.header ++
      (Keyword.openqasm.text.toList ++ ([' '] ++ (c.version.toList ++ [';']))) ++ c.body := by
    simp [toList_text, Keyword.text]
  obtain ⟨head, front, rfl, hhead, htokens⟩ := List.map_eq_cons_iff.mp htokens
  obtain ⟨number, front, rfl, hnumber, htokens⟩ := List.map_eq_cons_iff.mp htokens
  obtain ⟨close, front, rfl, hclose, htokens⟩ := List.map_eq_cons_iff.mp htokens
  obtain rfl := List.map_eq_nil_iff.mp htokens
  rw [Program.parse_eq_ok_iff, htext, scan]
  simp only [hscan, Reads]
  constructor
  · rintro ⟨ls, ⟨rest, hrest, hls⟩, hprogram⟩
    subst hls
    cases hprogram with
    | intro _ hnumber' _ _ hstatements =>
      refine ⟨?_, rest, hrest, hstatements⟩
      rw [hnumber, hversion] at hnumber'
      exact (Option.some.inj hnumber').symm
  · rintro ⟨hq, rest, hrest, hstatements⟩
    refine ⟨_, ⟨rest, hrest, rfl⟩, .intro hhead ?_ (hq ▸ hsupported) hclose hstatements⟩
    rw [hnumber, hversion, hq]

theorem reads_body {c : MappedCircuit} (hc : c.Legible) (offset line : Nat) :
    ∃ offset' line', ∀ sts, Reads offset line c.body sts ↔
      ∃ more, Reads offset' line' c.registerAndInstructions more ∧
        sts = c.includes.map .includes ++ more := by
  obtain ⟨front, offset', line', hfront, hreads⟩ := reads_lines
    (fun path hpath => isLine_includes (hc.includes path hpath)) c.registerAndInstructions
      offset line
  have heq : c.includes.map .includes = front := by
    have hmap := List.forall₂_map_left_iff.mpr hfront
    rwa [List.forall₂_eq_eq_eq] at hmap
  exact ⟨offset', line', heq ▸ hreads⟩

theorem reads_register (c : MappedCircuit) (offset line : Nat) :
    ∃ offset' line', ∀ sts, Reads offset line c.registerAndInstructions sts ↔
      ∃ more,
      Reads offset' line' (c.instructions.flatMap (fun i => '\n' :: i.text.toList) ++ ['\n']) more ∧
        sts = .qreg ⟨deviceRegister, c.size.toNat⟩ :: more := by
  have hdecl : RegisterDecl.Legible ⟨deviceRegister, c.size.toNat⟩ :=
    ⟨isName_deviceRegister, c.size.toNat_lt⟩
  obtain ⟨_, offset', line', rfl, hreads⟩ := (isLine_qreg hdecl).reads gap_lineEnd _ offset line
  exact ⟨offset', line', hreads⟩

/-- What a mapped circuit is read as. -/
theorem parse_text_eq {c : MappedCircuit} (hc : c.Legible)
    (hread : ∀ i ∈ c.instructions, i.Readable) :
    ∃ sts, List.Forall₂ Instruction.Denotes c.instructions sts ∧
      Program.parse c.text = .ok
        ⟨c.version, c.includes.map .includes ++ .qreg ⟨deviceRegister, c.size.toNat⟩ :: sts⟩ := by
  obtain ⟨offset, line, hparse⟩ := parse_text hc
  obtain ⟨offset₁, line₁, hbody⟩ := reads_body hc offset line
  obtain ⟨offset₂, line₂, hregister⟩ := c.reads_register offset₁ line₁
  obtain ⟨sts, offset₃, line₃, hsts, hinstructions⟩ :=
    reads_lines (fun i hi => (hc.instructions i hi).isLine (hread i hi)) ['\n'] offset₂ line₂
  refine ⟨sts, hsts, (hparse _).mpr ⟨rfl, (hbody _).mpr ⟨_, ?_, rfl⟩⟩⟩
  refine (hregister _).mpr ⟨sts, (hinstructions _).mpr ⟨[], reads_lineEnd.mpr rfl, ?_⟩, rfl⟩
  rw [List.append_nil]

/-- **Which mapped circuits can be read back.** -/
theorem parse_text_iff {c : MappedCircuit} (hc : c.Legible) :
    (∃ q, Program.parse c.text = .ok q) ↔ ∀ i ∈ c.instructions, i.Readable := by
  constructor
  · intro ⟨q, hq⟩
    by_contra hunread
    simp only [not_forall] at hunread
    obtain ⟨i, hi, hunread⟩ := hunread
    obtain ⟨offset, line, hparse⟩ := parse_text hc
    obtain ⟨offset₁, line₁, hbody⟩ := reads_body hc offset line
    obtain ⟨more, hmore, -⟩ := (hbody _).mp ((hparse q).mp hq).2
    obtain ⟨offset₂, line₂, hregister⟩ := c.reads_register offset₁ line₁
    obtain ⟨sts, hsts, -⟩ := (hregister _).mp hmore
    have hlines : ∀ j ∈ c.instructions,
        IsLine j.Denotes j.text.toList ∨ NoLine j.text.toList := by
      intro j hj
      by_cases hreadable : j.Readable
      · exact Or.inl ((hc.instructions j hj).isLine hreadable)
      · exact Or.inr ((hc.instructions j hj).noLine hreadable)
    exact not_reads_lines hlines ⟨i, hi, (hc.instructions i hi).noLine hunread⟩ _ _ _ _ hsts
  · intro hread
    obtain ⟨sts, -, hparse⟩ := parse_text_eq hc hread
    exact ⟨_, hparse⟩

end MappedCircuit

end QubitRouting
