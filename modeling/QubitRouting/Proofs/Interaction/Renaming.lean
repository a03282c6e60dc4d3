import QubitRouting.Proofs.Interaction.Names
import QubitRouting.Proofs.Placement.Alike
import QubitRouting.Proofs.Routing.Route

/-!
# Graphs with other names

The qubits of a graph can be given other names. As long as different names stay different, a renamed
graph behaves as the graph that it was: a renamed request makes of it what the request made of the
graph, renamed (`after_renamed`), it has the same placement (`alike_renamed`), and qubits are routed
in the same way (`swapsFor_renamed`). Only the texts of faults tell the two apart.
-/

set_option autoImplicit false

namespace QubitRouting

namespace InteractionGraph

/-- The graph with other names. -/
def renamed (g : InteractionGraph) (f : String → String) : InteractionGraph :=
  { g with
    qubits := g.qubits.map fun r => { r with name := f r.name }
    qubitIndex := g.qubitIndex.map fun (name, i) => (f name, i) }

variable {g : InteractionGraph} {f : String → String}

/-! ## What a renamed graph answers -/

@[simp] theorem size_renamed (g : InteractionGraph) (f : String → String) :
    (g.renamed f).qubits.size = g.qubits.size :=
  Array.size_map

@[simp] theorem interactions_renamed (g : InteractionGraph) (f : String → String) :
    (g.renamed f).interactions = g.interactions := rfl

theorem named?_renamed (hf : Function.Injective f) (name : String) :
    (g.renamed f).named? (f name) = g.named? name := by
  have hlookup : ∀ index : List (String × Nat),
      (index.map fun (name, i) => (f name, i)).lookup (f name) = index.lookup name := by
    intro index
    induction index with
    | nil => rfl
    | cons entry index ih =>
      obtain ⟨key, i⟩ := entry
      simp only [List.map_cons, lookup_cons_eq, ih, hf.eq_iff]
  exact congrArg (·.map LogicalQubit.mk) (hlookup g.qubitIndex)

theorem qubit?_renamed (g : InteractionGraph) (f : String → String) (q : LogicalQubit) :
    (g.renamed f).qubit? q = (g.qubit? q).map fun r => { r with name := f r.name } :=
  Array.getElem?_map

theorem incident_renamed (g : InteractionGraph) (f : String → String) (q : LogicalQubit) :
    (g.renamed f).incident q = g.incident q := by
  rw [incident_eq, qubit?_renamed, incident_eq, Option.map_map]
  rfl

theorem usage_renamed (g : InteractionGraph) (f : String → String) (q : LogicalQubit) :
    (g.renamed f).usage q = g.usage q := by
  rw [usage_eq, qubit?_renamed, usage_eq, Option.map_map]
  rfl

/-! ## Requests -/

theorem addQubit_renamed (hf : Function.Injective f) (name : String) :
    (g.renamed f).addQubit (f name) = ((g.addQubit name).1, (g.addQubit name).2.renamed f) := by
  rw [addQubit, named?_renamed hf, addQubit]
  cases g.named? name with
  | some q => rfl
  | none => simp [renamed]

theorem addBit_renamed (g : InteractionGraph) (f : String → String) (name : String) :
    (g.renamed f).addBit name = ((g.addBit name).1, (g.addBit name).2.renamed f) := by
  have hbit : (g.renamed f).bitNamed? name = g.bitNamed? name := rfl
  rw [addBit, hbit, addBit]
  cases g.bitNamed? name with
  | some i => rfl
  | none => rfl

/-- What is done to one qubit, apart from its name, is done to the renamed one. -/
theorem modify_renamed (g : InteractionGraph) (q : LogicalQubit) {h : QubitRecord → QubitRecord}
    (hf : ∀ r : QubitRecord, h { r with name := f r.name } = { h r with name := f (h r).name }) :
    (g.renamed f).qubits.modify q.id h =
      (g.qubits.modify q.id h).map fun r => { r with name := f r.name } := by
  refine Array.ext_getElem? fun i => ?_
  simp only [renamed, Array.getElem?_modify, Array.getElem?_map]
  by_cases hi : q.id = i
  · cases g.qubits[i]? with
    | none => simp [hi]
    | some r => simp [hi, hf]
  · simp [hi]

theorem use_renamed (g : InteractionGraph) (f : String → String) (q : LogicalQubit) :
    (g.renamed f).use q = (g.use q).renamed f := by
  rw [use, modify_renamed g q fun _ => rfl]
  rfl

theorem enlist_renamed (g : InteractionGraph) (f : String → String) (i : Nat) (q : LogicalQubit) :
    (g.renamed f).enlist i q = (g.enlist i q).renamed f := by
  rw [enlist, modify_renamed g q fun _ => rfl]
  rfl

theorem reinforce_renamed (g : InteractionGraph) (f : String → String) (i : Nat) (e : Interaction) :
    (g.renamed f).reinforce i e = (g.reinforce i e).renamed f := by
  simp only [reinforce, intervening, jointUsage, use_renamed, usage_renamed]
  rfl

theorem introduce_renamed (g : InteractionGraph) (f : String → String) (a b : LogicalQubit) :
    (g.renamed f).introduce a b = (g.introduce a b).renamed f := by
  simp only [introduce, jointUsage, usage_renamed, ← enlist_renamed]
  rfl

theorem meet_renamed (g : InteractionGraph) (f : String → String) (a b : LogicalQubit) :
    (g.renamed f).meet a b = ((g.meet a b).1, (g.meet a b).2.renamed f) := by
  have hbetween : (g.renamed f).between? a b = g.between? a b := rfl
  rw [meet, hbetween, meet]
  cases g.between? a b with
  | none => exact congrArg _ (introduce_renamed g f a b)
  | some i =>
    dsimp only
    rw [interactions_renamed]
    cases g.interactions[i]? with
    | none => rfl
    | some e => simp only [reinforce_renamed]

theorem record_renamed (g : InteractionGraph) (f : String → String) (a b : LogicalQubit) :
    ((g.renamed f).record a b).2 = (g.record a b).2.renamed f := by
  rw [record, record, isNone_qubit?, isNone_qubit?, isNone_qubit?, isNone_qubit?, size_renamed,
    meet_renamed]
  split
  · rfl
  · split
    · rfl
    · split
      · rfl
      · rfl

/-- The request in other names. -/
def Request.renamed (f : String → String) : Request → Request
  | addQubit name => addQubit (f name)
  | addBit name => addBit name
  | recordNamed a b => recordNamed (f a) (f b)
  | record a b => record a b

theorem Request.plain_renamed (hf : Function.Injective f) {c : Request} :
    (c.renamed f).Plain ↔ c.Plain := by
  cases c with
  | recordNamed a b => exact hf.ne_iff
  | addQubit name => exact Iff.rfl
  | addBit name => exact Iff.rfl
  | record a b => exact Iff.rfl

/-- **A renamed request** makes of a renamed graph what the request makes of the graph. -/
theorem after_renamed (hf : Function.Injective f) (c : Request) :
    (g.renamed f).after (c.renamed f) = (g.after c).renamed f := by
  cases c with
  | addQubit name =>
    rw [after, Request.renamed, answer, addQubit_renamed hf]
    rfl
  | addBit name =>
    rw [after, Request.renamed, answer, addBit_renamed]
    rfl
  | record a b => exact record_renamed g f a b
  | recordNamed a b =>
    rw [after, Request.renamed, answer, recordNamed, after, answer, recordNamed]
    simp only [hf.eq_iff, addQubit_renamed hf]
    split
    · rfl
    · exact record_renamed _ f _ _

theorem afterAll_renamed (hf : Function.Injective f) (cs : List Request) :
    (g.renamed f).afterAll (cs.map (·.renamed f)) = (g.afterAll cs).renamed f := by
  induction cs generalizing g with
  | nil => rfl
  | cons c cs ih => rw [List.map_cons, afterAll_cons, afterAll_cons, after_renamed hf, ih]

/-! ## Placement and routing -/

theorem alike_renamed (g : InteractionGraph) (f : String → String) : g.Alike (g.renamed f) where
  qubits := g.size_renamed f
  interactions := rfl
  connected q := by rw [isConnected, incident_renamed, isConnected]
  partners q := by
    rw [partners, incident_renamed, partners]
    rfl

variable {t : Topology} {m : Layout} {a b : LogicalQubit}

theorem select_renamed {s : MoverStrategy} {c : LogicalQubit × LogicalQubit} :
    s.select (g.renamed f) t m a b = .ok c ↔ s.select g t m a b = .ok c := by
  cases s with
  | distanceToCenter =>
    simp only [MoverStrategy.select, MoverStrategy.distanceFrom, bind_eq_ok_iff, placeOf_eq_ok_iff]
  | lessConnected => simp only [MoverStrategy.select, (alike_renamed g f).totalWeight]

/-- Qubits are brought together in the same way, whatever they are called. -/
theorem swapsFor_renamed (r : Router) {swaps : List Swap} :
    r.swapsFor (g.renamed f) t m a b = .ok swaps ↔ r.swapsFor g t m a b = .ok swaps := by
  rw [Router.swapsFor, Router.swapsFor]
  by_cases hab : a = b
  · rw [if_pos hab, if_pos hab]
    exact iff_of_false throw_ne_ok throw_ne_ok
  · rw [if_neg hab, if_neg hab]
    simp only [bind_eq_ok_iff, placeOf_eq_ok_iff]
    refine exists_congr fun pa => and_congr_right fun _ => exists_congr fun pb =>
      and_congr_right fun _ => ?_
    by_cases hlinked : t.adjacent pa pb
    · rw [if_pos hlinked, if_pos hlinked]
    · rw [if_neg hlinked, if_neg hlinked]
      simp only [bind_eq_ok_iff, select_renamed, placeOf_eq_ok_iff]
      exact Iff.rfl

end InteractionGraph

end QubitRouting
