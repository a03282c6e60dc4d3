import QubitRouting.Proofs.Interaction.Record

/-!
# Graphs that requests have made

An interaction graph changes through four requests: a qubit or a classical bit is declared, or a
meeting of two qubits is recorded, by their names or by their numbers. Three lists say all about
what requests have made of it (`after_views`): the names of the qubits and those of the bits, each
at its first occurrence, and the pairs of qubits that have met, each at their first meeting. A
request only ever adds to the end of these lists, and keeps the graph well formed
(`WellFormed.after`). What a well-formed graph answers is read off the lists: numbers are positions,
and positions do not change.
-/

set_option autoImplicit false

namespace QubitRouting

/-! ## Lists without repetitions -/

theorem prefix_foldl_withName (names more : List String) : names <+: more.foldl withName names := by
  induction more generalizing names with
  | nil => exact List.prefix_refl names
  | cons name more ih => exact (prefix_withName names name).trans (ih (withName names name))

theorem mem_foldl_withName {names more : List String} {x : String} :
    x ∈ more.foldl withName names ↔ x ∈ names ∨ x ∈ more := by
  induction more generalizing names with
  | nil => simp
  | cons name more ih => rw [List.foldl_cons, ih, mem_withName, List.mem_cons, or_assoc]

/-- The pairs with one more, unless the two are among them in either order. -/
def withPair (pairs : List (LogicalQubit × LogicalQubit)) (c : LogicalQubit × LogicalQubit) :
    List (LogicalQubit × LogicalQubit) :=
  if c ∈ pairs ∨ c.swap ∈ pairs then pairs else pairs ++ [c]

/-- No two qubits are a pair twice, in whatever order. -/
def Unrepeated (pairs : List (LogicalQubit × LogicalQubit)) : Prop :=
  pairs.Pairwise fun c d => c ≠ d ∧ c ≠ d.swap

theorem prefix_withPair (pairs : List (LogicalQubit × LogicalQubit))
    (c : LogicalQubit × LogicalQubit) :
    pairs <+: withPair pairs c := by
  unfold withPair
  split
  · exact List.prefix_refl pairs
  · exact List.prefix_append pairs [c]

theorem mem_withPair {pairs : List (LogicalQubit × LogicalQubit)} {a b : LogicalQubit}
    {c : LogicalQubit × LogicalQubit} :
    (a, b) ∈ withPair pairs c ∨ (b, a) ∈ withPair pairs c ↔
      ((a, b) ∈ pairs ∨ (b, a) ∈ pairs) ∨ (a, b) = c ∨ (b, a) = c := by
  obtain ⟨x, y⟩ := c
  unfold withPair
  split
  · rename_i h
    simp only [Prod.swap_prod_mk] at h
    constructor
    · exact Or.inl
    · rintro (hmem | heq | heq)
      · exact hmem
      · obtain ⟨rfl, rfl⟩ := Prod.mk.inj heq
        exact h
      · obtain ⟨rfl, rfl⟩ := Prod.mk.inj heq
        exact h.symm
  · simp only [List.mem_append, List.mem_singleton]
    exact or_or_or_comm

theorem prefix_foldl_withPair (pairs more : List (LogicalQubit × LogicalQubit)) :
    pairs <+: more.foldl withPair pairs := by
  induction more generalizing pairs with
  | nil => exact List.prefix_refl pairs
  | cons c more ih => exact (prefix_withPair pairs c).trans (ih (withPair pairs c))

/-- Two qubits are a pair exactly if they were one before or were added, in either order. -/
theorem mem_foldl_withPair {pairs more : List (LogicalQubit × LogicalQubit)} {a b : LogicalQubit} :
    (a, b) ∈ more.foldl withPair pairs ∨ (b, a) ∈ more.foldl withPair pairs ↔
      ((a, b) ∈ pairs ∨ (b, a) ∈ pairs) ∨ (a, b) ∈ more ∨ (b, a) ∈ more := by
  induction more generalizing pairs with
  | nil => simp
  | cons c more ih =>
    rw [List.foldl_cons, ih, mem_withPair, List.mem_cons, List.mem_cons, or_assoc]
    exact or_congr_right or_or_or_comm

theorem foldl_withPair_eq_nil_iff {pairs more : List (LogicalQubit × LogicalQubit)} :
    more.foldl withPair pairs = [] ↔ pairs = [] ∧ more = [] := by
  induction more generalizing pairs with
  | nil => simp
  | cons c more ih =>
    have hne : withPair pairs c ≠ [] := by
      unfold withPair
      split
      · rename_i h
        rintro rfl
        simp at h
      · simp
    rw [List.foldl_cons, ih]
    simp [hne]

/-- A pair that does not repeat has one position. -/
theorem Unrepeated.eq_of_getElem? {pairs : List (LogicalQubit × LogicalQubit)}
    (h : Unrepeated pairs)
    {i j : Nat} {a b : LogicalQubit} (hi : pairs[i]? = some (a, b) ∨ pairs[i]? = some (b, a))
    (hj : pairs[j]? = some (a, b) ∨ pairs[j]? = some (b, a)) : i = j := by
  -- of two positions the later one would hold a repetition
  have hearlier : ∀ {i j : Nat}, i < j → (pairs[i]? = some (a, b) ∨ pairs[i]? = some (b, a)) →
      (pairs[j]? = some (a, b) ∨ pairs[j]? = some (b, a)) → False := by
    intro i j hij hi hj
    have hget : ∀ {c d}, pairs[i]? = some c → pairs[j]? = some d → c ≠ d ∧ c ≠ d.swap := by
      intro c d hc hd
      obtain ⟨hlt, rfl⟩ := List.getElem?_eq_some_iff.mp hc
      obtain ⟨hlt', rfl⟩ := List.getElem?_eq_some_iff.mp hd
      exact List.pairwise_iff_getElem.mp h i j hlt hlt' hij
    rcases hi with hi | hi <;> rcases hj with hj | hj
    · exact (hget hi hj).1 rfl
    · exact (hget hi hj).2 rfl
    · exact (hget hi hj).2 rfl
    · exact (hget hi hj).1 rfl
  rcases Nat.lt_trichotomy i j with hlt | heq | hgt
  · exact (hearlier hlt hi hj).elim
  · exact heq
  · exact (hearlier hgt hj hi).elim

namespace InteractionGraph

variable {g g' : InteractionGraph}

/-! ## What a graph answers, read off its lists -/

/-- The interaction of two qubits is found whenever they are among the pairs. -/
theorem exists_between?_iff (h : g.WellFormed) {a b : LogicalQubit} :
    (∃ i, g.between? a b = some i) ↔ (a, b) ∈ g.pairs ∨ (b, a) ∈ g.pairs := by
  simp only [h.between, exists_or, List.mem_iff_getElem?]

/-- A pair has one number only, so that no pair repeats. -/
theorem WellFormed.unrepeated (h : g.WellFormed) : Unrepeated g.pairs := by
  refine List.pairwise_iff_getElem.mpr fun i j hi hj hij => ?_
  have hfirst : g.between? g.pairs[j].1 g.pairs[j].2 = some j :=
    (h.between _ _ j).mpr (Or.inl (List.getElem?_eq_getElem hj))
  have hsecond : ∀ c, g.pairs[i] = c → g.between? c.1 c.2 = some i := fun c hc =>
    (h.between _ _ i).mpr (Or.inl ((List.getElem?_eq_getElem hi).trans (congrArg some hc)))
  refine ⟨fun heq => ?_, fun heq => ?_⟩
  · have hsame := Option.some.inj ((hsecond _ heq).symm.trans hfirst)
    omega
  · have hsame := Option.some.inj ((hsecond _ heq).symm.trans ((g.between?_comm _ _).trans hfirst))
    omega

/-- A request to a graph. -/
inductive Request where
  | addQubit (name : String)
  | addBit (name : String)
  | recordNamed (a b : String)
  | record (a b : LogicalQubit)
deriving DecidableEq, Repr

namespace Request

/-- The names of qubits that a request declares. A meeting of a qubit with itself declares none. -/
def qubits : Request → List String
  | addQubit name => [name]
  | recordNamed a b => if a = b then [] else [a, b]
  | addBit _ | record _ _ => []

/-- The names of classical bits that a request declares. -/
def bits : Request → List String
  | addBit name => [name]
  | addQubit _ | recordNamed _ _ | record _ _ => []

end Request

/-- The number that a request returns, if it succeeds, with the graph that it leaves in any case. -/
def answer (g : InteractionGraph) : Request → Except Fault Nat × InteractionGraph
  | .addQubit name => (.ok (g.addQubit name).1.id, (g.addQubit name).2)
  | .addBit name => (.ok (g.addBit name).1, (g.addBit name).2)
  | .recordNamed a b => g.recordNamed a b
  | .record a b => g.record a b

/-- The graph after a request, whether it succeeded or not. -/
def after (g : InteractionGraph) (c : Request) : InteractionGraph := (g.answer c).2

/-- The graph after requests, one after the other. -/
def afterAll (g : InteractionGraph) (cs : List Request) : InteractionGraph := cs.foldl after g

@[simp] theorem afterAll_nil (g : InteractionGraph) : g.afterAll [] = g := rfl

@[simp] theorem afterAll_cons (g : InteractionGraph) (c : Request) (cs : List Request) :
    g.afterAll (c :: cs) = (g.after c).afterAll cs := rfl

theorem afterAll_append (g : InteractionGraph) (cs ds : List Request) :
    g.afterAll (cs ++ ds) = (g.afterAll cs).afterAll ds :=
  List.foldl_append

/-- The qubits that meet in a request, if it succeeds. -/
def meeting? (g : InteractionGraph) : Request → Option (LogicalQubit × LogicalQubit)
  | .recordNamed a b => if a = b then none else some (g.addBoth a b).1
  | .record a b =>
    if a.id < g.qubits.size ∧ b.id < g.qubits.size ∧ a ≠ b then some (a, b) else none
  | .addQubit _ | .addBit _ => none

/-- The meetings that requests record, in order. -/
def met (g : InteractionGraph) : List Request → List (LogicalQubit × LogicalQubit)
  | [] => []
  | c :: cs => (g.meeting? c).toList ++ (g.after c).met cs

/-- Why a request fails. -/
inductive Refused (g : InteractionGraph) : Request → Fault → Prop where
  | sameName (a : String) : Refused g (.recordNamed a a) (.selfInteraction .collection a)
  | unknownFirst {a : LogicalQubit} (b : LogicalQubit) (ha : g.qubits.size ≤ a.id) :
      Refused g (.record a b) (.unknownQubit .collection a.label)
  | unknownSecond {a b : LogicalQubit} (ha : a.id < g.qubits.size) (hb : g.qubits.size ≤ b.id) :
      Refused g (.record a b) (.unknownQubit .collection b.label)
  | sameNumber {a : LogicalQubit} (ha : a.id < g.qubits.size) :
      Refused g (.record a a) (.selfInteraction .collection (g.nameOf a))

theorem Refused.answer_eq {c : Request} {e : Fault} (h : g.Refused c e) :
    g.answer c = (.error e, g) := by
  cases h with
  | sameName a => exact g.recordNamed_self a
  | unknownFirst b ha =>
    rw [answer, InteractionGraph.record, isNone_qubit?, decide_eq_true ha, if_pos rfl]
  | unknownSecond ha hb =>
    rw [answer, InteractionGraph.record, isNone_qubit?, isNone_qubit?, decide_eq_false (by omega),
      decide_eq_true hb, if_neg (by simp), if_pos rfl]
  | sameNumber ha =>
    rw [answer, InteractionGraph.record, isNone_qubit?, decide_eq_false (by omega),
      if_neg (by simp), if_neg (by simp), if_pos rfl]

/-- **All that a request can do**, with what it returns: it fails for one of the reasons and changes
nothing, or it declares a name, or two different qubits meet, which a request by name has declared
before. -/
inductive Effect (g : InteractionGraph) : Request → Except Fault Nat × InteractionGraph → Prop where
  | refused {c : Request} {e : Fault} (h : g.Refused c e) : Effect g c (.error e, g)
  | addQubit (name : String) :
      Effect g (.addQubit name) (.ok (g.addQubit name).1.id, (g.addQubit name).2)
  | addBit (name : String) :
      Effect g (.addBit name) (.ok (g.addBit name).1, (g.addBit name).2)
  | recordNamed {a b : String} (hab : a ≠ b) :
      Effect g (.recordNamed a b) (.ok (g.metNamed a b).1, (g.metNamed a b).2)
  | record {a b : LogicalQubit} (ha : a.id < g.qubits.size) (hb : b.id < g.qubits.size)
      (hab : a ≠ b) :
      Effect g (.record a b) (.ok (g.meet a b).1, (g.meet a b).2)

theorem effect_answer (h : g.WellFormed) (c : Request) : g.Effect c (g.answer c) := by
  have hfails : ∀ {e : Fault}, g.Refused c e → g.Effect c (g.answer c) := by
    intro e hrefused
    rw [hrefused.answer_eq]
    exact .refused hrefused
  cases c with
  | addQubit name => exact .addQubit name
  | addBit name => exact .addBit name
  | recordNamed a b =>
    by_cases hab : a = b
    · subst hab
      exact hfails (.sameName a)
    · rw [answer, recordNamed_eq h hab]
      exact .recordNamed hab
  | record a b =>
    by_cases ha : a.id < g.qubits.size
    swap
    · exact hfails (.unknownFirst b (by omega))
    by_cases hb : b.id < g.qubits.size
    swap
    · exact hfails (.unknownSecond ha (by omega))
    by_cases hab : a = b
    · subst hab
      exact hfails (.sameNumber ha)
    · rw [answer, record_eq_ok ha hb hab]
      exact .record ha hb hab

theorem bits_meet (g : InteractionGraph) (a b : LogicalQubit) : (g.meet a b).2.bits = g.bits := by
  unfold meet
  split
  · split
    · rfl
    · rfl
  · rfl

theorem pairs_meet_eq (h : g.WellFormed) (a b : LogicalQubit) :
    (g.meet a b).2.pairs = withPair g.pairs (a, b) := by
  rw [pairs_meet h, withPair]
  simp only [Option.isSome_iff_exists, exists_between?_iff h, Prod.swap_prod_mk]

theorem bits_metNamed (g : InteractionGraph) (a b : String) : (g.metNamed a b).2.bits = g.bits := by
  have hbits : (g.addBoth a b).2.bits = ((g.addQubit a).2.addQubit b).2.bits := rfl
  rw [metNamed, bits_meet, hbits, bits_addQubit, bits_addQubit]

theorem pairs_metNamed (h : g.WellFormed) (a b : String) :
    (g.metNamed a b).2.pairs = withPair g.pairs (g.addBoth a b).1 := by
  rw [metNamed, pairs_meet_eq (h.addBoth a b), pairs_addBoth]

/-- The lists after a request: what it declares and whom it lets meet is added to them. -/
theorem after_views (h : g.WellFormed) (c : Request) :
    (g.after c).names = c.qubits.foldl withName g.names ∧
      (g.after c).bits.toList = c.bits.foldl withName g.bits.toList ∧
      (g.after c).pairs = (g.meeting? c).toList.foldl withPair g.pairs := by
  have heffect := effect_answer h c
  rw [after]
  generalize g.answer c = r at heffect ⊢
  cases heffect with
  | refused hrefused =>
    cases hrefused with
    | sameName a => simp [Request.qubits, Request.bits, meeting?]
    | unknownFirst b ha => simp [Request.qubits, Request.bits, meeting?, Nat.not_lt.mpr ha]
    | unknownSecond ha hb => simp [Request.qubits, Request.bits, meeting?, Nat.not_lt.mpr hb]
    | sameNumber ha => simp [Request.qubits, Request.bits, meeting?]
  | addQubit name =>
    exact ⟨names_addQubit h name, congrArg Array.toList (bits_addQubit g name),
      pairs_addQubit g name⟩
  | addBit name => exact ⟨names_addBit g name, bits_addBit h name, pairs_addBit g name⟩
  | recordNamed hab =>
    rw [names_metNamed h, bits_metNamed, pairs_metNamed h]
    simp [Request.qubits, Request.bits, meeting?, hab]
  | record ha hb hab =>
    rw [names_meet h, bits_meet, pairs_meet_eq h]
    simp [Request.qubits, Request.bits, meeting?, ha, hb, hab]

theorem WellFormed.after (h : g.WellFormed) (c : Request) : (g.after c).WellFormed := by
  have heffect := effect_answer h c
  unfold InteractionGraph.after
  generalize g.answer c = r at heffect ⊢
  cases heffect with
  | refused _ => exact h
  | addQubit name => exact h.addQubit name
  | addBit name => exact h.addBit name
  | recordNamed hab => exact h.metNamed hab
  | record ha hb hab =>
    rw [← length_names] at ha hb
    exact h.meet ha hb hab

/-! ## Requests in a row -/

theorem WellFormed.afterAll (h : g.WellFormed) (cs : List Request) :
    (g.afterAll cs).WellFormed := by
  induction cs generalizing g with
  | nil => exact h
  | cons c cs ih => exact ih (h.after c)

/-- **The lists after any requests.** -/
theorem afterAll_views (h : g.WellFormed) (cs : List Request) :
    (g.afterAll cs).names = (cs.flatMap (·.qubits)).foldl withName g.names ∧
      (g.afterAll cs).bits.toList = (cs.flatMap (·.bits)).foldl withName g.bits.toList ∧
      (g.afterAll cs).pairs = (g.met cs).foldl withPair g.pairs := by
  induction cs generalizing g with
  | nil => exact ⟨rfl, rfl, rfl⟩
  | cons c cs ih =>
    obtain ⟨hnames, hbits, hpairs⟩ := after_views h c
    obtain ⟨hnames', hbits', hpairs'⟩ := ih (h.after c)
    rw [afterAll_cons, hnames', hbits', hpairs', hnames, hbits, hpairs, met, List.flatMap_cons,
      List.flatMap_cons, List.foldl_append, List.foldl_append, List.foldl_append]
    exact ⟨rfl, rfl, rfl⟩

/-- In a graph that requests have made, two qubits are a pair exactly if they have met. -/
theorem mem_pairs_afterAll (cs : List Request) {a b : LogicalQubit} :
    (a, b) ∈ (empty.afterAll cs).pairs ∨ (b, a) ∈ (empty.afterAll cs).pairs ↔
      (a, b) ∈ empty.met cs ∨ (b, a) ∈ empty.met cs := by
  rw [(afterAll_views wellFormed_empty cs).2.2, mem_foldl_withPair]
  exact or_iff_right (by simp [empty, pairs])

/-- The second graph has the lists of the first one, and perhaps more behind them. -/
structure ContinuedBy (g g' : InteractionGraph) : Prop where
  names : g.names <+: g'.names
  bits : g.bits.toList <+: g'.bits.toList
  pairs : g.pairs <+: g'.pairs

theorem continuedBy_afterAll (h : g.WellFormed) (cs : List Request) :
    g.ContinuedBy (g.afterAll cs) := by
  obtain ⟨hnames, hbits, hpairs⟩ := afterAll_views h cs
  refine ⟨?_, ?_, ?_⟩
  · rw [hnames]
    exact prefix_foldl_withName _ _
  · rw [hbits]
    exact prefix_foldl_withName _ _
  · rw [hpairs]
    exact prefix_foldl_withPair _ _

/-! ## Numbers are kept -/

theorem getElem?_of_isPrefix {α : Type} {xs ys : List α} (h : xs <+: ys) {i : Nat} {x : α}
    (hx : xs[i]? = some x) : ys[i]? = some x := by
  obtain ⟨more, rfl⟩ := h
  rw [List.getElem?_append_left (List.getElem?_eq_some_iff.mp hx).1]
  exact hx

theorem ContinuedBy.named? (h : g.ContinuedBy g') (hg : g.WellFormed) (hg' : g'.WellFormed)
    {name : String} {q : LogicalQubit} (hq : g.named? name = some q) : g'.named? name = some q := by
  rw [named?_eq_some_iff hg] at hq
  rw [named?_eq_some_iff hg']
  exact getElem?_of_isPrefix h.names hq

theorem named?_metNamed (h : g.WellFormed) {a b : String} (hab : a ≠ b) :
    (g.metNamed a b).2.named? a = some (g.addBoth a b).1.1 ∧
      (g.metNamed a b).2.named? b = some (g.addBoth a b).1.2 := by
  obtain ⟨ha, hb, -⟩ := addBoth_spec h hab
  have hsame := named?_congr (h.addBoth a b) (h.metNamed hab) (names_meet (h.addBoth a b) _ _)
  rw [hsame, hsame]
  exact ⟨ha, hb⟩

end InteractionGraph

end QubitRouting
