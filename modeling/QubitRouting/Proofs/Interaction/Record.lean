import Mathlib.Data.List.Nodup
import QubitRouting.Interaction.Graph

/-!
# What recording does to an interaction graph

Two views are all that placement, routing and the passes see of how a graph grows: the names of its
qubits in order, and the pairs of qubits that interact, in order. Weights and usage counters come on
top and change neither view.

A graph is *well formed* when every interaction joins two different qubits of the graph, and when
what is kept besides belongs to the views: each index gives the positions in its list, and each
qubit has listed the positions of its pairs. An operation writes all of these in several places, and
leaves a well-formed graph well formed.
-/

set_option autoImplicit false

namespace QubitRouting

/-- The names with one more, unless it is among them. -/
def withName (names : List String) (name : String) : List String :=
  if name ∈ names then names else names ++ [name]

theorem mem_withName {names : List String} {name x : String} :
    x ∈ withName names name ↔ x ∈ names ∨ x = name := by
  unfold withName
  split
  · rename_i h
    constructor
    · exact Or.inl
    · intro hx
      rcases hx with hx | rfl
      · exact hx
      · exact h
  · rw [List.mem_append, List.mem_singleton]

theorem prefix_withName (names : List String) (name : String) : names <+: withName names name := by
  unfold withName
  split
  · exact List.prefix_refl names
  · exact List.prefix_append names [name]

/-! ## Indexes -/

/-- The index gives every entry of a list its position, and nothing else. -/
def Indexes (index : List (String × Nat)) (xs : List String) : Prop :=
  ∀ x i, index.lookup x = some i ↔ xs[i]? = some x

theorem lookup_cons_eq {κ : Type} [BEq κ] [LawfulBEq κ] [DecidableEq κ] (index : List (κ × Nat))
    (x y : κ) (i : Nat) :
    ((y, i) :: index).lookup x = if x = y then some i else index.lookup x := by
  by_cases hxy : x = y
  · rw [if_pos hxy, hxy, List.lookup_cons_self]
  · have hne : (x == y) = false := beq_false_of_ne hxy
    rw [if_neg hxy, List.lookup_cons, hne]

namespace Indexes

variable {index : List (String × Nat)} {xs : List String} {x : String}

theorem nil : Indexes [] [] := by
  intro x i
  simp

theorem exists_iff (h : Indexes index xs) : (∃ i, index.lookup x = some i) ↔ x ∈ xs := by
  rw [List.mem_iff_getElem?]
  exact exists_congr (h x)

theorem lookup_eq_none_iff (h : Indexes index xs) : index.lookup x = none ↔ x ∉ xs := by
  rw [← h.exists_iff, Option.eq_none_iff_forall_ne_some, not_exists]

/-- A position is found for one entry only, so that no entry repeats. -/
theorem nodup (h : Indexes index xs) : xs.Nodup := by
  rw [List.nodup_iff_pairwise_ne, List.pairwise_iff_getElem]
  intro i j hi hj hij heq
  have hfirst := (h xs[i] i).mpr (List.getElem?_eq_getElem hi)
  have hsecond := (h xs[i] j).mpr (by rw [heq]; exact List.getElem?_eq_getElem hj)
  have hsame := Option.some.inj (hfirst.symm.trans hsecond)
  omega

/-- A new entry goes to the end of the list. -/
theorem push (h : Indexes index xs) (hnew : index.lookup x = none) :
    Indexes ((x, xs.length) :: index) (xs ++ [x]) := by
  intro y i
  rw [lookup_cons_eq, List.getElem?_append]
  by_cases hyx : y = x
  · subst hyx
    rw [if_pos rfl, Option.some.injEq]
    by_cases hi : i < xs.length
    · have hne : xs[i]? ≠ some y :=
        fun hget => h.lookup_eq_none_iff.mp hnew (List.mem_of_getElem? hget)
      rw [if_pos hi]
      exact iff_of_false (by omega) hne
    · rw [if_neg hi, List.getElem?_singleton]
      by_cases heq : i = xs.length
      · simp [heq]
      · rw [if_neg (by omega)]
        exact iff_of_false (Ne.symm heq) (by simp)
  · rw [if_neg hyx, h y i]
    by_cases hi : i < xs.length
    · rw [if_pos hi]
    · rw [if_neg hi, List.getElem?_eq_none (by omega), List.getElem?_singleton]
      refine iff_of_false (by simp) ?_
      split
      · simp [Ne.symm hyx]
      · simp

end Indexes

theorem pairKey_comm (a b : LogicalQubit) : pairKey a b = pairKey b a := by
  unfold pairKey
  rcases Nat.lt_trichotomy a.id b.id with hlt | heq | hgt
  · rw [if_pos hlt, if_neg (Nat.lt_asymm hlt)]
  · obtain rfl : a = b := congrArg LogicalQubit.mk heq
    rfl
  · rw [if_neg (Nat.lt_asymm hgt), if_pos hgt]

/-- Two qubits have the key of two others if they are the same ones, in either order. -/
theorem pairKey_eq_iff {a b x y : LogicalQubit} :
    pairKey x y = pairKey a b ↔ (a, b) = (x, y) ∨ (a, b) = (y, x) := by
  constructor
  · have hkey : ∀ x y, pairKey x y = (x, y) ∨ pairKey x y = (y, x) := by
      intro x y
      unfold pairKey
      split
      · exact Or.inl rfl
      · exact Or.inr rfl
    intro h
    rcases hkey x y with hxy | hxy <;> rcases hkey a b with hab | hab <;> rw [hxy, hab] at h <;>
      simp_all
  · rintro (h | h)
    · obtain ⟨rfl, rfl⟩ := Prod.mk.inj h
      rfl
    · obtain ⟨rfl, rfl⟩ := Prod.mk.inj h
      exact pairKey_comm b a

/-- The positions of the pairs that a qubit is in. -/
def positions (pairs : List (LogicalQubit × LogicalQubit)) (q : LogicalQubit) : List Nat :=
  (List.range pairs.length).filter fun i => (pairs[i]?).any fun c => c.1 = q || c.2 = q

theorem mem_positions_iff {pairs : List (LogicalQubit × LogicalQubit)} {q : LogicalQubit}
    {i : Nat} :
    i ∈ positions pairs q ↔ ∃ c, pairs[i]? = some c ∧ (q = c.1 ∨ q = c.2) := by
  rw [positions, List.mem_filter, List.mem_range, Option.any_eq_true]
  simp only [Bool.or_eq_true, decide_eq_true_iff]
  constructor
  · rintro ⟨-, c, hc, hq⟩
    exact ⟨c, hc, hq.imp Eq.symm Eq.symm⟩
  · rintro ⟨c, hc, hq⟩
    exact ⟨(List.getElem?_eq_some_iff.mp hc).1, c, hc, hq.imp Eq.symm Eq.symm⟩

theorem positions_append (pairs : List (LogicalQubit × LogicalQubit))
    (c : LogicalQubit × LogicalQubit) (q : LogicalQubit) :
    positions (pairs ++ [c]) q =
      positions pairs q ++ if c.1 = q ∨ c.2 = q then [pairs.length] else [] := by
  rw [positions, List.length_append, List.length_singleton, List.range_succ, List.filter_append]
  congr 1
  · refine List.filter_congr fun i hi => ?_
    rw [List.getElem?_append_left (List.mem_range.mp hi)]
  · rw [List.filter_singleton, List.getElem?_concat_length]
    simp

namespace InteractionGraph

/-- The names of the qubits, in order. -/
def names (g : InteractionGraph) : List String := g.qubits.toList.map (·.name)

/-- The pairs that interact, in order. -/
def pairs (g : InteractionGraph) : List (LogicalQubit × LogicalQubit) :=
  g.interactions.toList.map fun e => (e.first, e.second)

/-- Every interaction joins two different qubits of the graph, and the indexes and the lists of
qubits say where names, bits and pairs are. -/
structure WellFormed (g : InteractionGraph) : Prop where
  named : Indexes g.qubitIndex g.names
  bitNamed : Indexes g.bitIndex g.bits.toList
  joins : ∀ e ∈ g.pairs, e.1.id < g.names.length ∧ e.2.id < g.names.length ∧ e.1 ≠ e.2
  between : ∀ a b i, g.between? a b = some i ↔ g.pairs[i]? = some (a, b) ∨ g.pairs[i]? = some (b, a)
  incident : ∀ q, g.incident q = positions g.pairs q

variable {g g' : InteractionGraph}

theorem length_names (g : InteractionGraph) : g.names.length = g.qubits.size := by
  rw [names, List.length_map, Array.length_toList]

theorem getElem?_names (g : InteractionGraph) (i : Nat) :
    g.names[i]? = g.qubits[i]?.map (·.name) := by
  rw [names, List.getElem?_map, Array.getElem?_toList]

theorem getElem?_pairs (g : InteractionGraph) (i : Nat) :
    g.pairs[i]? = g.interactions[i]?.map fun e => (e.first, e.second) := by
  rw [pairs, List.getElem?_map, Array.getElem?_toList]

theorem length_pairs (g : InteractionGraph) : g.pairs.length = g.interactions.size := by
  rw [pairs, List.length_map, Array.length_toList]

theorem incident_eq (g : InteractionGraph) (q : LogicalQubit) :
    g.incident q = ((g.qubit? q).map fun r => r.incident.toList).getD [] := by
  rw [incident]
  cases g.qubit? q <;> rfl

theorem usage_eq (g : InteractionGraph) (q : LogicalQubit) :
    g.usage q = ((g.qubit? q).map (·.usage)).getD 0 := by
  rw [usage]
  cases g.qubit? q <;> rfl

theorem between?_comm (g : InteractionGraph) (a b : LogicalQubit) :
    g.between? a b = g.between? b a := by
  rw [between?, between?, pairKey_comm]

theorem joins_iff {e : Interaction} {a b : LogicalQubit} :
    e.joins a b = true ↔ (e.first, e.second) = (a, b) ∨ (e.first, e.second) = (b, a) := by
  simp [Interaction.joins]

theorem other?_eq_some_iff {e : Interaction} {a b : LogicalQubit} :
    e.other? a = some b ↔ e.joins a b := by
  rw [joins_iff, Interaction.other?]
  by_cases hfirst : e.first = a
  · simp only [hfirst, if_true, Option.some.injEq, Prod.mk.injEq, true_and]
    grind
  · simp [hfirst, and_comm]

theorem WellFormed.mem_incident_iff (h : g.WellFormed) {q : LogicalQubit} {i : Nat} :
    i ∈ g.incident q ↔ ∃ c, g.pairs[i]? = some c ∧ (q = c.1 ∨ q = c.2) := by
  rw [h.incident, mem_positions_iff]

/-- The partners of a qubit are the other ends of its interactions. -/
theorem WellFormed.mem_partners_iff (h : g.WellFormed) {a b : LogicalQubit} {w : Weight} :
    (b, w) ∈ g.partners a ↔ ∃ e ∈ g.interactions.toList, e.joins a b ∧ e.weight = w := by
  have hentry : ∀ (i : Nat), (do
      let e ← g.interactions[i]?
      let other ← e.other? a
      return (other, e.weight)) = some (b, w) ↔
      ∃ e, g.interactions[i]? = some e ∧ e.joins a b ∧ e.weight = w := by
    intro i
    simp [Option.bind_eq_some_iff, ← other?_eq_some_iff]
  rw [partners, List.mem_filterMap]
  simp only [hentry, h.mem_incident_iff]
  constructor
  · rintro ⟨i, -, e, he, hjoins⟩
    rw [← Array.getElem?_toList] at he
    exact ⟨e, List.mem_of_getElem? he, hjoins⟩
  · rintro ⟨e, he, hjoins, hweight⟩
    obtain ⟨i, hi⟩ := List.mem_iff_getElem?.mp he
    rw [Array.getElem?_toList] at hi
    refine ⟨i, ⟨(e.first, e.second), ?_, ?_⟩, e, hi, hjoins, hweight⟩
    · rw [getElem?_pairs, hi, Option.map_some]
    · rcases joins_iff.mp hjoins with heq | heq
      · exact Or.inl (Prod.mk.inj heq).1.symm
      · exact Or.inr (Prod.mk.inj heq).2.symm

theorem wellFormed_empty : empty.WellFormed where
  named := .nil
  bitNamed := .nil
  joins _ he := absurd he List.not_mem_nil
  between a b i := by simp [empty, between?, pairs]
  incident q := rfl

/-! ## Names and numbers -/

theorem named?_eq_some_iff (h : g.WellFormed) {name : String} {q : LogicalQubit} :
    g.named? name = some q ↔ g.names[q.id]? = some name := by
  rw [← h.named, named?, Option.map_eq_some_iff]
  constructor
  · rintro ⟨i, hi, rfl⟩
    exact hi
  · intro hq
    exact ⟨q.id, hq, rfl⟩

theorem exists_named?_iff (h : g.WellFormed) {name : String} :
    (∃ q, g.named? name = some q) ↔ name ∈ g.names := by
  rw [List.mem_iff_getElem?]
  constructor
  · intro ⟨q, hq⟩
    exact ⟨q.id, (named?_eq_some_iff h).mp hq⟩
  · intro ⟨i, hi⟩
    exact ⟨⟨i⟩, (named?_eq_some_iff h).mpr hi⟩

theorem lt_of_named?_eq_some (h : g.WellFormed) {name : String} {q : LogicalQubit}
    (hq : g.named? name = some q) : q.id < g.names.length :=
  (List.getElem?_eq_some_iff.mp ((named?_eq_some_iff h).mp hq)).1

theorem nameOf_eq_of_getElem? {name : String} {q : LogicalQubit} (h : g.names[q.id]? = some name) :
    g.nameOf q = name := by
  rw [getElem?_names] at h
  obtain ⟨record, hrec, rfl⟩ := Option.map_eq_some_iff.mp h
  rw [nameOf, qubit?, hrec]

/-- A qubit of the graph is the one that has its name. -/
theorem named?_nameOf (h : g.WellFormed) {q : LogicalQubit} (hq : q.id < g.names.length) :
    g.named? (g.nameOf q) = some q := by
  have hget := List.getElem?_eq_getElem hq
  rw [nameOf_eq_of_getElem? hget]
  exact (named?_eq_some_iff h).mpr hget

theorem nameOf_of_named?_eq_some (h : g.WellFormed) {name : String} {q : LogicalQubit}
    (hq : g.named? name = some q) : g.nameOf q = name :=
  nameOf_eq_of_getElem? ((named?_eq_some_iff h).mp hq)

/-! ## Growth -/

variable {g'' : InteractionGraph}

/-- The second graph has at most more qubits at the end, and none of these has met another. -/
structure GrownTo (g g' : InteractionGraph) : Prop where
  interactions : g'.interactions = g.interactions
  pairIndex : g'.pairIndex = g.pairIndex
  qubits : ∃ late, g'.qubits.toList = g.qubits.toList ++ late ∧
    ∀ record ∈ late, record.incident = #[] ∧ record.usage = 0

theorem GrownTo.refl (g : InteractionGraph) : g.GrownTo g := ⟨rfl, rfl, [], by simp, by simp⟩

theorem GrownTo.trans (h : g.GrownTo g') (h' : g'.GrownTo g'') : g.GrownTo g'' := by
  obtain ⟨late, hqubits, hlate⟩ := h.qubits
  obtain ⟨late', hqubits', hlate'⟩ := h'.qubits
  refine ⟨h'.interactions.trans h.interactions, h'.pairIndex.trans h.pairIndex,
    late ++ late', ?_, ?_⟩
  · rw [hqubits', hqubits, List.append_assoc]
  · exact List.forall_mem_append.mpr ⟨hlate, hlate'⟩

theorem grownTo_addQubit (g : InteractionGraph) (name : String) :
    g.GrownTo (g.addQubit name).2 := by
  unfold addQubit
  cases g.named? name with
  | some q => exact .refl g
  | none => exact ⟨rfl, rfl, [⟨name, #[], 0⟩], by simp, by simp⟩

theorem grownTo_addBit (g : InteractionGraph) (name : String) : g.GrownTo (g.addBit name).2 := by
  unfold addBit
  cases g.bitNamed? name with
  | some i => exact .refl g
  | none => exact ⟨rfl, rfl, [], by simp, by simp⟩

/-- What is kept of a qubit does not change: new ones start where unknown ones are counted. -/
theorem GrownTo.kept {α : Type} (h : g.GrownTo g') (q : LogicalQubit) {of : QubitRecord → α}
    {none : α}
    (hnone : ∀ record : QubitRecord, record.incident = #[] → record.usage = 0 → of record = none) :
    ((g'.qubit? q).map of).getD none = ((g.qubit? q).map of).getD none := by
  obtain ⟨late, hqubits, hlate⟩ := h.qubits
  simp only [qubit?, ← Array.getElem?_toList, hqubits]
  by_cases hq : q.id < g.qubits.toList.length
  · rw [List.getElem?_append_left hq]
  · rw [List.getElem?_append_right (Nat.le_of_not_lt hq),
      List.getElem?_eq_none (Nat.le_of_not_lt hq)]
    cases hrecord : late[q.id - g.qubits.toList.length]? with
    | none => rfl
    | some record =>
      obtain ⟨hincident, husage⟩ := hlate record (List.mem_of_getElem? hrecord)
      exact hnone record hincident husage

theorem GrownTo.between? (h : g.GrownTo g') : g'.between? = g.between? := by
  funext a b
  rw [InteractionGraph.between?, InteractionGraph.between?, h.pairIndex]

theorem GrownTo.incident (h : g.GrownTo g') (q : LogicalQubit) : g'.incident q = g.incident q := by
  rw [incident_eq, incident_eq]
  exact h.kept q fun record hincident _ => congrArg Array.toList hincident

theorem GrownTo.usage (h : g.GrownTo g') (q : LogicalQubit) : g'.usage q = g.usage q := by
  rw [usage_eq, usage_eq]
  exact h.kept q fun record _ husage => husage

theorem GrownTo.names (h : g.GrownTo g') : g.names <+: g'.names := by
  obtain ⟨late, hqubits, -⟩ := h.qubits
  rw [InteractionGraph.names, InteractionGraph.names, hqubits, List.map_append]
  exact List.prefix_append _ _

theorem GrownTo.pairs (h : g.GrownTo g') : g'.pairs = g.pairs := by
  rw [InteractionGraph.pairs, h.interactions]
  rfl

/-! ## Declarations -/

/-- What a declaration of a qubit does: nothing to one that is known, and else the qubit is the last
one. -/
theorem addQubit_cases (h : g.WellFormed) (name : String) :
    (∃ q, g.named? name = some q ∧ name ∈ g.names ∧ g.addQubit name = (q, g)) ∨
      g.qubitIndex.lookup name = none ∧ name ∉ g.names ∧
        g.addQubit name = (⟨g.qubits.size⟩,
          { g with
            qubits := g.qubits.push ⟨name, #[], 0⟩
            qubitIndex := (name, g.qubits.size) :: g.qubitIndex }) := by
  cases hn : g.named? name with
  | some q => exact Or.inl ⟨q, rfl, (exists_named?_iff h).mp ⟨q, hn⟩, by rw [addQubit, hn]⟩
  | none =>
    have hlookup : g.qubitIndex.lookup name = none := Option.map_eq_none_iff.mp hn
    exact Or.inr ⟨hlookup, h.named.lookup_eq_none_iff.mp hlookup, by rw [addQubit, hn]⟩

theorem names_addQubit (h : g.WellFormed) (name : String) :
    (g.addQubit name).2.names = withName g.names name := by
  rw [withName]
  rcases addQubit_cases h name with ⟨q, -, hmem, heq⟩ | ⟨-, hnew, heq⟩
  · rw [heq, if_pos hmem]
  · rw [heq, if_neg hnew, names, Array.toList_push, List.map_append]
    rfl

theorem pairs_addQubit (g : InteractionGraph) (name : String) :
    (g.addQubit name).2.pairs = g.pairs :=
  (grownTo_addQubit g name).pairs

theorem names_addBit (g : InteractionGraph) (name : String) :
    (g.addBit name).2.names = g.names := by
  rw [addBit]
  cases g.bitNamed? name <;> rfl

theorem pairs_addBit (g : InteractionGraph) (name : String) :
    (g.addBit name).2.pairs = g.pairs :=
  (grownTo_addBit g name).pairs

theorem bits_addQubit (g : InteractionGraph) (name : String) :
    (g.addQubit name).2.bits = g.bits := by
  rw [addQubit]
  cases g.named? name <;> rfl

theorem bits_addBit (h : g.WellFormed) (name : String) :
    (g.addBit name).2.bits.toList = withName g.bits.toList name := by
  rw [addBit, withName]
  cases hn : g.bitNamed? name with
  | some i => rw [if_pos (h.bitNamed.exists_iff.mp ⟨i, hn⟩)]
  | none =>
    rw [if_neg (h.bitNamed.lookup_eq_none_iff.mp hn)]
    exact Array.toList_push

/-- The qubit that a declaration returns is the one of that name. -/
theorem named?_addQubit (g : InteractionGraph) (name : String) :
    (g.addQubit name).2.named? name = some (g.addQubit name).1 := by
  cases hn : g.named? name with
  | some q => simp only [addQubit, hn]
  | none =>
    simp only [addQubit, hn]
    rw [named?, List.lookup_cons_self, Option.map_some]

theorem WellFormed.addQubit (h : g.WellFormed) (name : String) :
    (g.addQubit name).2.WellFormed where
  named := by
    rcases addQubit_cases h name with ⟨q, -, -, heq⟩ | ⟨hnew, -, heq⟩
    · rw [heq]
      exact h.named
    · have hpush := h.named.push hnew
      rw [length_names] at hpush
      rw [heq, names, Array.toList_push, List.map_append]
      exact hpush
  bitNamed := by
    have hindex : (g.addQubit name).2.bitIndex = g.bitIndex := by
      rw [InteractionGraph.addQubit]
      cases g.named? name <;> rfl
    rw [hindex, bits_addQubit]
    exact h.bitNamed
  joins e he := by
    rw [pairs_addQubit] at he
    have hle := (prefix_withName g.names name).length_le
    rw [names_addQubit h]
    obtain ⟨h₁, h₂, hne⟩ := h.joins e he
    exact ⟨by omega, by omega, hne⟩
  between := by
    rw [(grownTo_addQubit g name).between?, pairs_addQubit]
    exact h.between
  incident q := by
    rw [(grownTo_addQubit g name).incident, pairs_addQubit, h.incident]

theorem WellFormed.addBit (h : g.WellFormed) (name : String) : (g.addBit name).2.WellFormed := by
  rw [InteractionGraph.addBit]
  cases hn : g.bitNamed? name with
  | some i => exact h
  | none =>
    have hpush := h.bitNamed.push hn
    rw [← Array.toList_push, Array.length_toList] at hpush
    exact ⟨h.named, hpush, h.joins, h.between, h.incident⟩

/-! ## Meetings -/

/-- What one qubit is changed into changes neither its name nor the others. -/
theorem names_modify (g : InteractionGraph) (q : LogicalQubit) {f : QubitRecord → QubitRecord}
    (hf : ∀ r, (f r).name = r.name) :
    names { g with qubits := g.qubits.modify q.id f } = g.names := by
  refine List.ext_getElem? fun i => ?_
  rw [getElem?_names, getElem?_names, Array.getElem?_modify]
  cases g.qubits[i]? with
  | none => split <;> rfl
  | some record => split <;> simp [hf]

theorem names_use (g : InteractionGraph) (q : LogicalQubit) : (g.use q).names = g.names :=
  g.names_modify q fun _ => rfl

theorem names_enlist (g : InteractionGraph) (i : Nat) (q : LogicalQubit) :
    (g.enlist i q).names = g.names :=
  g.names_modify q fun _ => rfl

theorem incident_use (g : InteractionGraph) (p q : LogicalQubit) :
    (g.use p).incident q = g.incident q := by
  rw [incident_eq, incident_eq, qubit?, qubit?, use, Array.getElem?_modify]
  split
  · rw [Option.map_map]
    rfl
  · rfl

theorem incident_enlist {p : LogicalQubit} (hp : p.id < g.names.length) (i : Nat)
    (q : LogicalQubit) :
    (g.enlist i p).incident q = g.incident q ++ if p = q then [i] else [] := by
  rw [length_names] at hp
  simp only [incident, qubit?, enlist, Array.getElem?_modify]
  by_cases hpq : p = q
  · subst hpq
    rw [if_pos rfl, if_pos rfl, Array.getElem?_eq_getElem hp]
    exact Array.toList_push
  · have hid : p.id ≠ q.id := fun hid => hpq (congrArg LogicalQubit.mk hid)
    rw [if_neg hid, if_neg hpq, List.append_nil]

theorem names_reinforce (g : InteractionGraph) (i : Nat) (e : Interaction) :
    (g.reinforce i e).names = g.names := by
  have huse : (g.reinforce i e).names = ((g.use e.first).use e.second).names := rfl
  rw [huse, names_use, names_use]

theorem incident_reinforce (g : InteractionGraph) (i : Nat) (e : Interaction) (q : LogicalQubit) :
    (g.reinforce i e).incident q = g.incident q := by
  have huse : (g.reinforce i e).incident q = ((g.use e.first).use e.second).incident q := rfl
  rw [huse, incident_use, incident_use]

theorem pairs_reinforce {i : Nat} {e : Interaction} (h : g.interactions[i]? = some e) :
    (g.reinforce i e).pairs = g.pairs := by
  obtain ⟨hlt, hget⟩ := Array.getElem?_eq_some_iff.mp h
  simp only [reinforce, use, pairs, Array.toList_setIfInBounds]
  refine List.ext_getElem? fun j => ?_
  rw [List.getElem?_map, List.getElem?_map, List.getElem?_set]
  by_cases hj : i = j
  · subst hj
    rw [if_pos rfl, if_pos (by simpa using hlt), Array.getElem?_toList, h]
    rfl
  · rw [if_neg hj]

theorem WellFormed.reinforce (h : g.WellFormed) {i : Nat} {e : Interaction}
    (he : g.interactions[i]? = some e) : (g.reinforce i e).WellFormed where
  named := by
    rw [names_reinforce]
    exact h.named
  bitNamed := h.bitNamed
  joins := by
    rw [pairs_reinforce he, names_reinforce]
    exact h.joins
  between := by
    rw [pairs_reinforce he]
    exact h.between
  incident q := by rw [incident_reinforce, pairs_reinforce he, h.incident]

theorem names_introduce (g : InteractionGraph) (a b : LogicalQubit) :
    (g.introduce a b).names = g.names := by
  rw [introduce, names_enlist, names_enlist]
  rfl

theorem pairs_introduce (g : InteractionGraph) (a b : LogicalQubit) :
    (g.introduce a b).pairs = g.pairs ++ [(a, b)] := by
  simp [introduce, enlist, pairs]

theorem incident_introduce {a b : LogicalQubit} (ha : a.id < g.names.length)
    (hb : b.id < g.names.length) (hab : a ≠ b) (q : LogicalQubit) :
    (g.introduce a b).incident q =
      g.incident q ++ if a = q ∨ b = q then [g.pairs.length] else [] := by
  have hlists : (g.introduce a b).incident q =
      ((g.enlist g.interactions.size a).enlist g.interactions.size b).incident q := rfl
  rw [hlists, incident_enlist (by rw [names_enlist]; exact hb), incident_enlist ha,
    List.append_assoc, length_pairs]
  refine congrArg (g.incident q ++ ·) ?_
  by_cases haq : a = q
  · have hbq : b ≠ q := fun hbq => hab (haq.trans hbq.symm)
    simp [haq, hbq]
  · simp [haq]

/-- A first meeting is found under its number, and all others as before. -/
theorem between?_introduce (g : InteractionGraph) (a b x y : LogicalQubit) :
    (g.introduce a b).between? x y =
      if pairKey x y = pairKey a b then some g.interactions.size else g.between? x y :=
  lookup_cons_eq _ _ _ _

theorem WellFormed.between?_introduce_iff (h : g.WellFormed) {a b x y : LogicalQubit} {i : Nat}
    (hnew : g.between? a b = none) :
    (g.introduce a b).between? x y = some i ↔
      (g.introduce a b).pairs[i]? = some (x, y) ∨ (g.introduce a b).pairs[i]? = some (y, x) := by
  rw [pairs_introduce, between?_introduce, ← length_pairs]
  rcases Nat.lt_trichotomy i g.pairs.length with hlt | rfl | hgt
  · rw [List.getElem?_append_left hlt, ← h.between]
    by_cases hkey : pairKey x y = pairKey a b
    · have hnone : g.between? x y = none := by rw [← hnew, between?, between?, hkey]
      rw [if_pos hkey, hnone, Option.some.injEq]
      exact iff_of_false (Nat.ne_of_gt hlt) (by simp)
    · rw [if_neg hkey]
  · have hold : g.between? x y ≠ some g.pairs.length := by simp [h.between]
    rw [List.getElem?_concat_length, Option.some.injEq, Option.some.injEq, ← pairKey_eq_iff]
    by_cases hkey : pairKey x y = pairKey a b
    · simp [hkey]
    · rw [if_neg hkey]
      exact iff_of_false hold hkey
  · have hold : g.between? x y ≠ some i := by
      simp [h.between, List.getElem?_eq_none (Nat.le_of_lt hgt)]
    rw [List.getElem?_eq_none (by simpa using Nat.succ_le_of_lt hgt)]
    refine iff_of_false ?_ (by simp)
    split
    · rw [Option.some.injEq]
      exact Nat.ne_of_lt hgt
    · exact hold

theorem WellFormed.introduce (h : g.WellFormed) {a b : LogicalQubit} (ha : a.id < g.names.length)
    (hb : b.id < g.names.length) (hab : a ≠ b) (hnew : g.between? a b = none) :
    (g.introduce a b).WellFormed where
  named := by
    rw [names_introduce]
    exact h.named
  bitNamed := h.bitNamed
  joins e he := by
    rw [names_introduce]
    rw [pairs_introduce] at he
    rcases List.mem_append.mp he with he | he
    · exact h.joins e he
    · obtain rfl := List.mem_singleton.mp he
      exact ⟨ha, hb, hab⟩
  between x y i := h.between?_introduce_iff hnew
  incident q := by rw [incident_introduce ha hb hab, pairs_introduce, positions_append, h.incident]

/-- **What a meeting does**: an interaction that is there is reinforced, and else it is
introduced. -/
theorem meet_cases (h : g.WellFormed) (a b : LogicalQubit) :
    (∃ i e, g.between? a b = some i ∧ g.interactions[i]? = some e ∧ e.joins a b ∧
        g.meet a b = (i, g.reinforce i e)) ∨
      g.between? a b = none ∧ g.meet a b = (g.interactions.size, g.introduce a b) := by
  cases hi : g.between? a b with
  | none => exact Or.inr ⟨rfl, by rw [meet, hi]⟩
  | some i =>
    have hpair := (h.between a b i).mp hi
    rw [getElem?_pairs] at hpair
    cases he : g.interactions[i]? with
    | none => simp [he] at hpair
    | some e =>
      simp only [he, Option.map_some, Option.some.injEq] at hpair
      refine Or.inl ⟨i, e, rfl, he, joins_iff.mpr hpair, ?_⟩
      rw [meet, hi]
      simp only [he]

/-- A meeting changes no name, and adds its pair unless the two have met before. -/
theorem names_meet (h : g.WellFormed) (a b : LogicalQubit) : (g.meet a b).2.names = g.names := by
  rcases meet_cases h a b with ⟨i, e, -, -, -, hmeet⟩ | ⟨-, hmeet⟩
  · rw [hmeet, names_reinforce]
  · rw [hmeet, names_introduce]

theorem pairs_meet (h : g.WellFormed) (a b : LogicalQubit) :
    (g.meet a b).2.pairs = if (g.between? a b).isSome then g.pairs else g.pairs ++ [(a, b)] := by
  rcases meet_cases h a b with ⟨i, e, hi, he, -, hmeet⟩ | ⟨hnone, hmeet⟩
  · rw [hmeet, pairs_reinforce he, hi, if_pos Option.isSome_some]
  · rw [hmeet, pairs_introduce, hnone, if_neg (by simp)]

theorem WellFormed.meet (h : g.WellFormed) {a b : LogicalQubit} (ha : a.id < g.names.length)
    (hb : b.id < g.names.length) (hab : a ≠ b) : (g.meet a b).2.WellFormed := by
  rcases meet_cases h a b with ⟨i, e, -, he, -, hmeet⟩ | ⟨hnone, hmeet⟩
  · rw [hmeet]
    exact h.reinforce he
  · rw [hmeet]
    exact h.introduce ha hb hab hnone

/-- Lookups by name depend on the names alone. -/
theorem named?_congr (hg : g.WellFormed) (hg' : g'.WellFormed) (h : g'.names = g.names)
    (name : String) :
    g'.named? name = g.named? name := by
  ext q
  rw [named?_eq_some_iff hg', named?_eq_some_iff hg, h]

/-- A qubit keeps its number when another one is declared. -/
theorem named?_addQubit_of_named? (h : g.WellFormed) {name : String} {q : LogicalQubit}
    (hq : g.named? name = some q) (other : String) : (g.addQubit other).2.named? name = some q := by
  rw [named?_eq_some_iff h] at hq
  rw [named?_eq_some_iff (h.addQubit other), names_addQubit h]
  obtain ⟨more, hmore⟩ := prefix_withName g.names other
  rw [← hmore, List.getElem?_append_left (List.getElem?_eq_some_iff.mp hq).1]
  exact hq

theorem isNone_qubit? {q : LogicalQubit} : (g.qubit? q).isNone = decide (g.qubits.size ≤ q.id) := by
  rw [qubit?, Bool.eq_iff_iff, Option.isNone_iff_eq_none, Array.getElem?_eq_none_iff,
    decide_eq_true_iff]

/-- Recording two different qubits of the graph is their meeting. -/
theorem record_eq_ok {a b : LogicalQubit} (ha : a.id < g.qubits.size) (hb : b.id < g.qubits.size)
    (hab : a ≠ b) : g.record a b = (.ok (g.meet a b).1, (g.meet a b).2) := by
  rw [record, isNone_qubit?, isNone_qubit?, decide_eq_false (by omega), decide_eq_false (by omega),
    if_neg (by simp), if_neg (by simp), if_neg hab]

/-- Both qubits of these names, which are added if they are new. -/
def addBoth (g : InteractionGraph) (a b : String) :
    (LogicalQubit × LogicalQubit) × InteractionGraph :=
  let (qa, g) := g.addQubit a
  let (qb, g) := g.addQubit b
  ((qa, qb), g)

theorem WellFormed.addBoth (h : g.WellFormed) (a b : String) : (g.addBoth a b).2.WellFormed :=
  (h.addQubit a).addQubit b

/-- The two qubits of different names are different, and have their numbers from then on. -/
theorem addBoth_spec (h : g.WellFormed) {a b : String} (hab : a ≠ b) :
    (g.addBoth a b).2.named? a = some (g.addBoth a b).1.1 ∧
      (g.addBoth a b).2.named? b = some (g.addBoth a b).1.2 ∧
      (g.addBoth a b).1.1 ≠ (g.addBoth a b).1.2 := by
  have hwf := h.addBoth a b
  have ha := named?_addQubit_of_named? (h.addQubit a) (named?_addQubit g a) b
  have hb := named?_addQubit (g.addQubit a).2 b
  refine ⟨ha, hb, fun heq => ?_⟩
  rw [addBoth] at heq
  rw [heq] at ha
  have h₁ := (named?_eq_some_iff hwf).mp ha
  have h₂ := (named?_eq_some_iff hwf).mp hb
  exact hab (Option.some.inj (h₁.symm.trans h₂))

theorem addBoth_lt (h : g.WellFormed) {a b : String} (hab : a ≠ b) :
    (g.addBoth a b).1.1.id < (g.addBoth a b).2.names.length ∧
      (g.addBoth a b).1.2.id < (g.addBoth a b).2.names.length := by
  obtain ⟨ha, hb, -⟩ := addBoth_spec h hab
  exact ⟨lt_of_named?_eq_some (h.addBoth a b) ha, lt_of_named?_eq_some (h.addBoth a b) hb⟩

theorem names_addBoth (h : g.WellFormed) (a b : String) :
    (g.addBoth a b).2.names = withName (withName g.names a) b := by
  have hnames : (g.addBoth a b).2.names = ((g.addQubit a).2.addQubit b).2.names := rfl
  rw [hnames, names_addQubit (h.addQubit a), names_addQubit h]

theorem grownTo_addBoth (g : InteractionGraph) (a b : String) : g.GrownTo (g.addBoth a b).2 :=
  (grownTo_addQubit g a).trans (grownTo_addQubit (g.addQubit a).2 b)

theorem pairs_addBoth (g : InteractionGraph) (a b : String) :
    (g.addBoth a b).2.pairs = g.pairs :=
  (grownTo_addBoth g a b).pairs

/-- The graph after both qubits have been added and have met. -/
def metNamed (g : InteractionGraph) (a b : String) : Nat × InteractionGraph :=
  (g.addBoth a b).2.meet (g.addBoth a b).1.1 (g.addBoth a b).1.2

/-- **Recording by name** is the meeting of both qubits, once they are in the graph. That these are
known and different is what keeps it from failing half way, with the qubits added. -/
theorem recordNamed_eq (h : g.WellFormed) {a b : String} (hab : a ≠ b) :
    g.recordNamed a b = (.ok (g.metNamed a b).1, (g.metNamed a b).2) := by
  obtain ⟨ha, hb⟩ := addBoth_lt h hab
  rw [length_names] at ha hb
  rw [recordNamed, if_neg hab]
  exact record_eq_ok ha hb (addBoth_spec h hab).2.2

theorem recordNamed_self (g : InteractionGraph) (a : String) :
    g.recordNamed a a = (.error (.selfInteraction .collection a), g) :=
  if_pos rfl

theorem WellFormed.metNamed (h : g.WellFormed) {a b : String} (hab : a ≠ b) :
    (g.metNamed a b).2.WellFormed := by
  obtain ⟨ha, hb⟩ := addBoth_lt h hab
  exact (h.addBoth a b).meet ha hb (addBoth_spec h hab).2.2

theorem names_metNamed (h : g.WellFormed) (a b : String) :
    (g.metNamed a b).2.names = withName (withName g.names a) b :=
  (names_meet (h.addBoth a b) _ _).trans (names_addBoth h a b)

/-- **A recording that fails leaves the graph as it was**, although it fails at its end only. -/
theorem recordNamed_eq_error (h : g.WellFormed) {a b : String} {f : Fault}
    (hfault : (g.recordNamed a b).1 = .error f) :
    a = b ∧ f = .selfInteraction .collection a ∧ (g.recordNamed a b).2 = g := by
  by_cases hab : a = b
  · subst hab
    rw [recordNamed_self] at hfault ⊢
    exact ⟨rfl, (Except.error.inj hfault).symm, rfl⟩
  · rw [recordNamed_eq h hab] at hfault
    cases hfault

theorem WellFormed.recordNamed (h : g.WellFormed) (a b : String) :
    (g.recordNamed a b).2.WellFormed := by
  by_cases hab : a = b
  · subst hab
    rw [recordNamed_self]
    exact h
  · rw [recordNamed_eq h hab]
    exact h.metNamed hab

theorem ne_of_recordNamed_eq_ok {a b : String} {i : Nat} (h : (g.recordNamed a b).1 = .ok i) :
    a ≠ b := by
  rintro rfl
  rw [recordNamed_self] at h
  cases h

end InteractionGraph

end QubitRouting
