import QubitRouting.Proofs.Interaction.Names
import QubitRouting.Proofs.Placement.Alike

/-!
# Meetings in the other order

A meeting of two qubits is symmetric. In which order they are named shows in one place only: an
interaction writes its qubits as they first met. `InteractionGraph.ordered` forgets that, and
everything that a graph answers about interactions can be read off the ordered graph. Requests go
along with it (`ordered_after`), and a meeting of qubits that the graph knows is the same in either
order (`after_exchanged`). A qubit that is new would be numbered by the order of the names.
-/

set_option autoImplicit false

namespace QubitRouting

namespace Interaction

/-- The interaction with its qubits in the order of their numbers. -/
def ordered (e : Interaction) : Interaction :=
  if e.second.id < e.first.id then { e with first := e.second, second := e.first } else e

@[simp] theorem weight_ordered (e : Interaction) : e.ordered.weight = e.weight := by
  unfold ordered
  split <;> rfl

@[simp] theorem baseline_ordered (e : Interaction) : e.ordered.baseline = e.baseline := by
  unfold ordered
  split <;> rfl

@[simp] theorem other?_ordered (e : Interaction) (q : LogicalQubit) :
    e.ordered.other? q = e.other? q := by
  unfold ordered
  split
  · simp only [other?]
    by_cases hfirst : e.first = q
    · by_cases hsecond : e.second = q
      · simp [hfirst, hsecond]
      · simp [hfirst, hsecond]
    · simp [hfirst]
  · rfl

@[simp] theorem ordered_ordered (e : Interaction) : e.ordered.ordered = e.ordered := by
  unfold ordered
  split
  · rename_i hlt
    exact if_neg (Nat.lt_asymm hlt)
  · rfl

/-- The second interaction is the first one, with its qubits in either order. -/
def SameUpToOrder (e e' : Interaction) : Prop :=
  e'.weight = e.weight ∧ e'.baseline = e.baseline ∧
    (e'.first = e.first ∧ e'.second = e.second ∨ e'.first = e.second ∧ e'.second = e.first)

theorem sameUpToOrder_of_ordered_eq {e e' : Interaction} (h : e'.ordered = e.ordered) :
    e.SameUpToOrder e' := by
  refine ⟨?_, ?_, ?_⟩
  · rw [← e'.weight_ordered, h, weight_ordered]
  · rw [← e'.baseline_ordered, h, baseline_ordered]
  · have hfirst := congrArg Interaction.first h
    have hsecond := congrArg Interaction.second h
    by_cases he' : e'.second.id < e'.first.id
    · by_cases he : e.second.id < e.first.id
      · simp only [ordered, if_pos he', if_pos he] at hfirst hsecond
        exact Or.inl ⟨hsecond, hfirst⟩
      · simp only [ordered, if_pos he', if_neg he] at hfirst hsecond
        exact Or.inr ⟨hsecond, hfirst⟩
    · by_cases he : e.second.id < e.first.id
      · simp only [ordered, if_neg he', if_pos he] at hfirst hsecond
        exact Or.inr ⟨hfirst, hsecond⟩
      · simp only [ordered, if_neg he', if_neg he] at hfirst hsecond
        exact Or.inl ⟨hfirst, hsecond⟩

/-- In which order two qubits meet is forgotten. -/
theorem ordered_comm (a b : LogicalQubit) (weight : Weight) (baseline : UInt32) :
    ordered ⟨a, b, weight, baseline⟩ = ordered ⟨b, a, weight, baseline⟩ := by
  simp only [ordered]
  rcases Nat.lt_trichotomy a.id b.id with hlt | heq | hgt
  · rw [if_neg (Nat.lt_asymm hlt), if_pos hlt]
  · obtain rfl : a = b := congrArg LogicalQubit.mk heq
    rfl
  · rw [if_pos hgt, if_neg (Nat.lt_asymm hgt)]

end Interaction

namespace InteractionGraph

/-- The graph with the qubits of every interaction in the order of their numbers. -/
def ordered (g : InteractionGraph) : InteractionGraph :=
  { g with interactions := g.interactions.map (·.ordered) }

variable {g g' : InteractionGraph} {a b : LogicalQubit}

/-! ## What an ordered graph answers -/

@[simp] theorem qubits_ordered (g : InteractionGraph) : g.ordered.qubits = g.qubits := rfl

@[simp] theorem bits_ordered (g : InteractionGraph) : g.ordered.bits = g.bits := rfl

@[simp] theorem size_interactions_ordered (g : InteractionGraph) :
    g.ordered.interactions.size = g.interactions.size :=
  Array.size_map

@[simp] theorem ordered_ordered (g : InteractionGraph) : g.ordered.ordered = g.ordered := by
  simp only [ordered, Array.map_map, Function.comp_def, Interaction.ordered_ordered]

theorem getElem?_ordered (g : InteractionGraph) (i : Nat) :
    g.ordered.interactions[i]? = g.interactions[i]?.map (·.ordered) :=
  Array.getElem?_map

@[simp] theorem between?_ordered (g : InteractionGraph) (a b : LogicalQubit) :
    g.ordered.between? a b = g.between? a b := rfl

@[simp] theorem incident_ordered (g : InteractionGraph) (q : LogicalQubit) :
    g.ordered.incident q = g.incident q := rfl

@[simp] theorem partners_ordered (g : InteractionGraph) (q : LogicalQubit) :
    g.ordered.partners q = g.partners q := by
  rw [partners, incident_ordered, partners]
  congr 1
  funext i
  rw [getElem?_ordered]
  cases g.interactions[i]? with
  | none => rfl
  | some e => simp

/-- The second graph is the first one, but for the order in which interactions write their
qubits. -/
structure Resembles (g g' : InteractionGraph) : Prop where
  /-- The qubits have the same names and usage counters. -/
  qubits : g'.qubits = g.qubits
  bits : g'.bits = g.bits
  size : g'.interactions.size = g.interactions.size
  interactions : ∀ (i : Nat) (e e' : Interaction), g.interactions[i]? = some e →
    g'.interactions[i]? = some e' → e.SameUpToOrder e'
  incident : ∀ q, g'.incident q = g.incident q
  partners : ∀ q, g'.partners q = g.partners q
  totalWeight : ∀ q, g'.totalWeight q = g.totalWeight q

theorem resembles_of_ordered_eq (h : g'.ordered = g.ordered) : g.Resembles g' where
  qubits := by rw [← g'.qubits_ordered, h, qubits_ordered]
  bits := by rw [← g'.bits_ordered, h, bits_ordered]
  size := by rw [← g'.size_interactions_ordered, h, size_interactions_ordered]
  interactions i e e' he he' := by
    have hi := g'.getElem?_ordered i
    rw [h, getElem?_ordered, he, he'] at hi
    exact Interaction.sameUpToOrder_of_ordered_eq (Option.some.inj hi).symm
  incident q := by rw [← g'.incident_ordered, h, incident_ordered]
  partners q := by rw [← g'.partners_ordered, h, partners_ordered]
  totalWeight q := by
    rw [totalWeight, totalWeight, ← g'.partners_ordered, h, partners_ordered]

theorem Resembles.alike (h : g.Resembles g') : g.Alike g' where
  qubits := congrArg Array.size h.qubits
  interactions := h.size
  connected q := by rw [isConnected, h.incident, isConnected]
  partners := h.partners

/-! ## Meetings -/

/-- What is done to two qubits, in either order. -/
theorem modify_comm (qubits : Array QubitRecord) (a b : LogicalQubit)
    (f : QubitRecord → QubitRecord) :
    (qubits.modify a.id f).modify b.id f = (qubits.modify b.id f).modify a.id f := by
  apply Array.ext_getElem?
  intro i
  simp only [Array.getElem?_modify]
  by_cases ha : a.id = i
  · by_cases hb : b.id = i
    · simp [ha, hb]
    · simp [ha, hb]
  · by_cases hb : b.id = i
    · simp [ha, hb]
    · simp [ha, hb]

theorem use_comm (g : InteractionGraph) (a b : LogicalQubit) :
    (g.use a).use b = (g.use b).use a := by
  simp only [use, modify_comm g.qubits a b]

theorem enlist_comm (g : InteractionGraph) (i : Nat) (a b : LogicalQubit) :
    (g.enlist i a).enlist i b = (g.enlist i b).enlist i a := by
  simp only [enlist, modify_comm g.qubits a b]

theorem jointUsage_comm (g : InteractionGraph) (a b : LogicalQubit) :
    g.jointUsage a b = g.jointUsage b a :=
  UInt32.add_comm _ _

theorem ordered_reinforce (g : InteractionGraph) (i : Nat) (e : Interaction) :
    (g.ordered.reinforce i e.ordered).ordered = (g.reinforce i e).ordered := by
  have hgraph :
      ∀ e' : Interaction, (g.ordered.reinforce i e').ordered = (g.reinforce i e').ordered := by
    intro e'
    simp only [reinforce, ordered, use, Array.map_setIfInBounds, Array.map_map, Function.comp_def,
      Interaction.ordered_ordered]
    rfl
  rw [hgraph]
  unfold Interaction.ordered
  split
  · simp only [reinforce, intervening, ordered, Array.map_setIfInBounds]
    rw [g.use_comm e.second e.first, g.jointUsage_comm e.second e.first,
      jointUsage_comm _ e.second e.first, Interaction.ordered_comm]
  · rfl

theorem ordered_meet (g : InteractionGraph) (a b : LogicalQubit) :
    (g.ordered.meet a b).2.ordered = (g.meet a b).2.ordered := by
  rw [meet, between?_ordered, meet]
  cases g.between? a b with
  | none =>
    simp only [introduce, enlist, ordered, Array.map_push, Array.map_map, Function.comp_def,
      Interaction.ordered_ordered, Array.size_map]
    rfl
  | some i =>
    dsimp only
    rw [getElem?_ordered]
    cases g.interactions[i]? with
    | none => exact g.ordered_ordered
    | some e => exact ordered_reinforce g i e

theorem ordered_meet_comm (g : InteractionGraph) (a b : LogicalQubit) :
    (g.meet b a).2.ordered = (g.meet a b).2.ordered := by
  rw [meet, g.between?_comm b a, meet]
  cases g.between? a b with
  | none =>
    simp only [introduce, enlist_comm _ _ b a, pairKey_comm b a, g.jointUsage_comm b a]
    simp only [enlist, ordered, Array.map_push]
    rw [Interaction.ordered_comm]
  | some i => rfl

/-! ## Requests -/

theorem ordered_record (g : InteractionGraph) (a b : LogicalQubit) :
    (g.ordered.record a b).2.ordered = (g.record a b).2.ordered := by
  rw [record, record, isNone_qubit?, isNone_qubit?, isNone_qubit?, isNone_qubit?, qubits_ordered]
  split
  · exact g.ordered_ordered
  · split
    · exact g.ordered_ordered
    · split
      · exact g.ordered_ordered
      · exact g.ordered_meet a b

theorem addQubit_ordered (g : InteractionGraph) (name : String) :
    g.ordered.addQubit name = ((g.addQubit name).1, (g.addQubit name).2.ordered) := by
  have hnamed : g.ordered.named? name = g.named? name := rfl
  rw [addQubit, hnamed, addQubit]
  cases g.named? name with
  | some q => rfl
  | none => rfl

theorem addBit_ordered (g : InteractionGraph) (name : String) :
    g.ordered.addBit name = ((g.addBit name).1, (g.addBit name).2.ordered) := by
  have hnamed : g.ordered.bitNamed? name = g.bitNamed? name := rfl
  rw [addBit, hnamed, addBit]
  cases g.bitNamed? name with
  | some i => rfl
  | none => rfl

/-- A request sees the ordered graph only. -/
theorem ordered_after (g : InteractionGraph) (c : Request) :
    (g.ordered.after c).ordered = (g.after c).ordered := by
  cases c with
  | addQubit name =>
    rw [after, answer, addQubit_ordered]
    exact ordered_ordered _
  | addBit name =>
    rw [after, answer, addBit_ordered]
    exact ordered_ordered _
  | record a b => exact ordered_record g a b
  | recordNamed a b =>
    rw [after, answer, recordNamed, after, answer, recordNamed]
    split
    · exact g.ordered_ordered
    · simp only [addQubit_ordered]
      exact ordered_record _ _ _

theorem after_congr (h : g'.ordered = g.ordered) (c : Request) :
    (g'.after c).ordered = (g.after c).ordered := by
  rw [← ordered_after, h, ordered_after]

theorem addQubit_of_named? {name : String} {q : LogicalQubit} (h : g.named? name = some q) :
    g.addQubit name = (q, g) := by
  rw [addQubit, h]

/-- **Qubits that the graph knows meet in either order.** -/
theorem after_exchanged {x y : String} (hx : g.named? x = some a) (hy : g.named? y = some b) :
    (g.after (.recordNamed y x)).ordered = (g.after (.recordNamed x y)).ordered := by
  rw [after, answer, recordNamed, after, answer, recordNamed]
  by_cases hxy : x = y
  · rw [if_pos hxy, if_pos hxy.symm]
  · rw [if_neg hxy, if_neg (Ne.symm hxy)]
    simp only [addQubit_of_named? hx, addQubit_of_named? hy]
    rw [record, record]
    by_cases ha : (g.qubit? a).isNone
    · by_cases hb : (g.qubit? b).isNone
      · simp [ha, hb]
      · simp [ha, hb]
    · by_cases hb : (g.qubit? b).isNone
      · simp [ha, hb]
      · by_cases hab : a = b
        · simp [hab]
        · simp [ha, hb, hab, Ne.symm hab, ordered_meet_comm]

/-- The second request is the first one, or the same meeting of known qubits in the other order. -/
inductive Request.Exchanged (known : List String) : Request → Request → Prop where
  | same (c : Request) : Exchanged known c c
  | meeting {x y : String} (hx : x ∈ known) (hy : y ∈ known) :
      Exchanged known (.recordNamed x y) (.recordNamed y x)

theorem Request.Exchanged.plain {known : List String} {cs cs' : List Request}
    (h : List.Forall₂ (Exchanged known) cs cs') (hplain : ∀ c ∈ cs, c.Plain) :
    ∀ c ∈ cs', c.Plain := by
  induction h with
  | nil => exact hplain
  | cons hc _ ih =>
    obtain ⟨hhead, htail⟩ := List.forall_mem_cons.mp hplain
    refine List.forall_mem_cons.mpr ⟨?_, ih htail⟩
    cases hc with
    | same => exact hhead
    | meeting hx hy => exact Ne.symm hhead

/-- Requests in a row, with meetings exchanged as they may be. -/
theorem afterAll_exchanged {known : List String} {cs cs' : List Request} (hg : g.WellFormed)
    (h : g'.ordered = g.ordered) (hknown : ∀ x ∈ known, x ∈ g.names)
    (hcs : List.Forall₂ (Request.Exchanged known) cs cs') :
    (g'.afterAll cs').ordered = (g.afterAll cs).ordered := by
  induction hcs generalizing g g' with
  | nil => exact h
  | @cons c c' cs cs' hc _ ih =>
    rw [afterAll_cons, afterAll_cons]
    have hkept : ∀ x ∈ known, x ∈ (g.after c).names := by
      intro x hx
      rw [(after_views hg c).1]
      exact mem_foldl_withName.mpr (Or.inl (hknown x hx))
    refine ih (hg.after c) ?_ hkept
    rw [after_congr h]
    cases hc with
    | same => rfl
    | meeting hx hy =>
      obtain ⟨a, ha⟩ := (exists_named?_iff hg).mpr (hknown _ hx)
      obtain ⟨b, hb⟩ := (exists_named?_iff hg).mpr (hknown _ hy)
      exact after_exchanged ha hb

end InteractionGraph

end QubitRouting
