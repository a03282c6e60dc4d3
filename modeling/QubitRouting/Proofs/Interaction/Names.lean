import QubitRouting.Proofs.Interaction.Usage

/-!
# Requests by name

A circuit gives its qubits by name. Requests that do so determine by their names alone which qubits
interact and how often each of them is used: numbers and names correspond one to one
(`named_biUnique`), so that what is true of the meetings of numbers is true of the meetings of
names.
-/

set_option autoImplicit false

namespace QubitRouting

namespace InteractionGraph

namespace Request

/-- The names of qubits in a request. -/
def names : Request → List String
  | addQubit name => [name]
  | recordNamed a b => [a, b]
  | addBit _ | record _ _ => []

/-- The two names in a request for a meeting. -/
def pair? : Request → Option (String × String)
  | recordNamed a b => some (a, b)
  | addQubit _ | addBit _ | record _ _ => none

/-- The request is by name, and lets no qubit meet itself. -/
def Plain : Request → Prop
  | recordNamed a b => a ≠ b
  | addQubit _ | addBit _ => True
  | record _ _ => False

theorem Plain.qubits_eq {c : Request} (h : c.Plain) : c.qubits = c.names := by
  cases c with
  | recordNamed a b => exact if_neg h
  | record a b => exact h.elim
  | addQubit name => rfl
  | addBit name => rfl

theorem flatMap_qubits_eq {cs : List Request} (h : ∀ c ∈ cs, c.Plain) :
    cs.flatMap (·.qubits) = cs.flatMap (·.names) :=
  List.flatMap_congr fun c hc => (h c hc).qubits_eq

end Request

variable {g : InteractionGraph} {cs : List Request}

/-- The qubit has this name. -/
def Named (g : InteractionGraph) (q : LogicalQubit) (name : String) : Prop := g.named? name = some q

/-- The qubits of the first pair have the names of the second one. -/
def BothNamed (g : InteractionGraph) (c : LogicalQubit × LogicalQubit)
    (n : String × String) : Prop :=
  g.Named c.1 n.1 ∧ g.Named c.2 n.2

theorem named_biUnique (h : g.WellFormed) : Relator.BiUnique g.Named := by
  constructor
  · intro q name q' hq hq'
    exact Option.some.inj (hq.symm.trans hq')
  · intro q name name' hq hq'
    rw [Named, named?_eq_some_iff h] at hq hq'
    exact Option.some.inj (hq.symm.trans hq')

theorem bothNamed_biUnique (h : g.WellFormed) : Relator.BiUnique g.BothNamed := by
  obtain ⟨hleft, hright⟩ := named_biUnique h
  constructor
  · intro c n c' hc hc'
    exact Prod.ext (hleft hc.1 hc'.1) (hleft hc.2 hc'.2)
  · intro c n n' hc hc'
    exact Prod.ext (hright hc.1 hc'.1) (hright hc.2 hc'.2)

/-- The meetings of requests by name are those of the qubits that have these names. -/
theorem met_named (h : g.WellFormed) (hcs : ∀ c ∈ cs, c.Plain) :
    List.Forall₂ (g.afterAll cs).BothNamed (g.met cs) (cs.filterMap (·.pair?)) := by
  induction cs generalizing g with
  | nil => exact .nil
  | cons c cs ih =>
    obtain ⟨hc, hcs⟩ := List.forall_mem_cons.mp hcs
    have hrest := ih (h.after c) hcs
    cases c with
    | addQubit name => exact hrest
    | addBit name => exact hrest
    | record a b => exact hc.elim
    | recordNamed a b =>
      have hafter : g.after (.recordNamed a b) = (g.metNamed a b).2 := by
        rw [after, answer, recordNamed_eq h hc]
      obtain ⟨ha, hb⟩ := named?_metNamed h hc
      rw [← hafter] at ha hb
      have hwf := h.after (.recordNamed a b)
      have hkept :
          ∀ {name : String} {q : LogicalQubit}, (g.after (.recordNamed a b)).named? name = some q →
          (g.afterAll (.recordNamed a b :: cs)).named? name = some q :=
        (continuedBy_afterAll hwf cs).named? hwf (hwf.afterAll cs)
      have hmet : g.met (.recordNamed a b :: cs) =
          (g.addBoth a b).1 :: (g.after (.recordNamed a b)).met cs := by
        rw [met, meeting?, if_neg hc]
        rfl
      rw [hmet]
      exact .cons ⟨hkept ha, hkept hb⟩ hrest

/-! ## Names in place of numbers -/

theorem exists_of_mem_forall₂ {α β : Type} {R : α → β → Prop} {xs : List α} {ys : List β}
    (h : List.Forall₂ R xs ys) {y : β} (hy : y ∈ ys) : ∃ x, R x y := by
  induction h with
  | nil => exact absurd hy List.not_mem_nil
  | cons hxy _ ih =>
    rcases List.mem_cons.mp hy with rfl | hy
    · exact ⟨_, hxy⟩
    · exact ih hy

/-- The qubits of these two names interact. -/
def Joined (g : InteractionGraph) (a b : String) : Prop :=
  ∃ e ∈ g.interactions, (g.nameOf e.first, g.nameOf e.second) = (a, b) ∨
    (g.nameOf e.first, g.nameOf e.second) = (b, a)

theorem WellFormed.joined_iff (h : g.WellFormed) {a b : String} :
    g.Joined a b ↔ ∃ qa qb, g.BothNamed (qa, qb) (a, b) ∧
      ((qa, qb) ∈ g.pairs ∨ (qb, qa) ∈ g.pairs) := by
  have hnamed : ∀ e ∈ g.interactions, g.Named e.first (g.nameOf e.first) ∧
      g.Named e.second (g.nameOf e.second) ∧ (e.first, e.second) ∈ g.pairs := by
    intro e he
    have hmem : (e.first, e.second) ∈ g.pairs :=
      List.mem_map.mpr ⟨e, Array.mem_toList_iff.mpr he, rfl⟩
    obtain ⟨hfirst, hsecond, -⟩ := h.joins _ hmem
    exact ⟨named?_nameOf h hfirst, named?_nameOf h hsecond, hmem⟩
  have hedge : ∀ {c}, c ∈ g.pairs → ∃ e ∈ g.interactions, (e.first, e.second) = c := by
    intro c hc
    obtain ⟨e, he, hends⟩ := List.mem_map.mp hc
    exact ⟨e, Array.mem_toList_iff.mp he, hends⟩
  have hname : ∀ {q name}, g.Named q name → g.nameOf q = name := nameOf_of_named?_eq_some h
  constructor
  · rintro ⟨e, he, hends | hends⟩
    · obtain ⟨hfirst, hsecond, hmem⟩ := hnamed e he
      obtain ⟨rfl, rfl⟩ := Prod.mk.inj hends
      exact ⟨e.first, e.second, ⟨hfirst, hsecond⟩, Or.inl hmem⟩
    · obtain ⟨hfirst, hsecond, hmem⟩ := hnamed e he
      obtain ⟨rfl, rfl⟩ := Prod.mk.inj hends
      exact ⟨e.second, e.first, ⟨hsecond, hfirst⟩, Or.inr hmem⟩
  · rintro ⟨qa, qb, ⟨ha, hb⟩, hmem | hmem⟩
    · obtain ⟨e, he, hends⟩ := hedge hmem
      obtain ⟨rfl, rfl⟩ := Prod.mk.inj hends
      exact ⟨e, he, Or.inl (Prod.ext (hname ha) (hname hb))⟩
    · obtain ⟨e, he, hends⟩ := hedge hmem
      obtain ⟨rfl, rfl⟩ := Prod.mk.inj hends
      exact ⟨e, he, Or.inr (Prod.ext (hname hb) (hname ha))⟩

/-- **Interactions by name**: the qubits of two names interact exactly if a request let them
meet. -/
theorem joined_afterAll (hcs : ∀ c ∈ cs, c.Plain) {a b : String} :
    (empty.afterAll cs).Joined a b ↔
      (a, b) ∈ cs.filterMap (·.pair?) ∨ (b, a) ∈ cs.filterMap (·.pair?) := by
  have hwf := wellFormed_empty.afterAll cs
  have hmet := met_named wellFormed_empty hcs
  have hmem : ∀ {c n}, (empty.afterAll cs).BothNamed c n →
      (c ∈ empty.met cs ↔ n ∈ cs.filterMap (·.pair?)) := by
    intro c n hc
    exact List.rel_mem (bothNamed_biUnique hwf) hc hmet
  simp only [hwf.joined_iff, mem_pairs_afterAll]
  constructor
  · rintro ⟨qa, qb, ⟨ha, hb⟩, hmet'⟩
    exact hmet'.imp (hmem ⟨ha, hb⟩).mp (hmem ⟨hb, ha⟩).mp
  · rintro (hab | hab)
    · obtain ⟨⟨qa, qb⟩, hc⟩ := exists_of_mem_forall₂ hmet hab
      exact ⟨qa, qb, hc, Or.inl ((hmem hc).mpr hab)⟩
    · obtain ⟨⟨qb, qa⟩, hc⟩ := exists_of_mem_forall₂ hmet hab
      exact ⟨qa, qb, ⟨hc.2, hc.1⟩, Or.inr ((hmem hc).mpr hab)⟩

end InteractionGraph

end QubitRouting
