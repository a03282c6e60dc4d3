import QubitRouting.Proofs.Interaction.Usage

/-!
# What damps an interaction

When two qubits meet again, their interaction gains the less the more has happened since their last
meeting. What has happened is read off counters: the joint usage of the two qubits, less the
*baseline* that the interaction has kept from their last meeting. Here the history behind these
counters is told in terms of requests and their answers. A request that records a meeting returns
the number of an interaction (`recorded?`), and reinforces it if it was there before
(`reinforced?`).

All that a request can do to counters and interactions is said once (`Records`, `records_after`).
From it follows what a row of requests does (`usage_afterAll_eq`, `getElem?_afterAll`), and the main
result: what damps an interaction is the number of times that other interactions of the two qubits
have been reinforced since it was last recorded (`LastRecording.counts`). Counters have 32 bits.
Where the reinforcements of two qubits that interact are more than that (`CountersSuffice`), a
counter has started again at zero, and the difference to the baseline says nothing.
-/

set_option autoImplicit false

namespace QubitRouting

namespace InteractionGraph

variable {g g₀ g' : InteractionGraph} {c : Request} {cs : List Request} {i j : Nat}
  {e : Interaction} {q : LogicalQubit}

/-! ## What requests record -/

/-- The number of the interaction in which a request records a meeting, if it does so and
succeeds. -/
def recorded? (g : InteractionGraph) : Request → Option Nat
  | .recordNamed a b => (g.recordNamed a b).1.toOption
  | .record a b => (g.record a b).1.toOption
  | .addQubit _ | .addBit _ => none

/-- The number of the interaction that a request reinforces: it records a meeting in one that is
there. -/
def reinforced? (g : InteractionGraph) (c : Request) : Option Nat :=
  (g.recorded? c).filter (· < g.interactions.size)

/-- What requests have to say, one after the other, each about the graph that it meets. -/
def logOf (what : InteractionGraph → Request → Option Nat) (g : InteractionGraph) :
    List Request → List Nat
  | [] => []
  | c :: cs => (what g c).toList ++ (g.after c).logOf what cs

/-- The numbers of the interactions in which requests record meetings, in order. -/
abbrev recordings (g : InteractionGraph) (cs : List Request) : List Nat := g.logOf recorded? cs

/-- The numbers of the interactions that requests reinforce, in order. -/
abbrev reinforcements (g : InteractionGraph) (cs : List Request) : List Nat :=
  g.logOf reinforced? cs

/-- **What a request does to counters and interactions**, with the number that it records: qubits
may be added, and then two of them meet, for the first time or again. -/
inductive Records (g : InteractionGraph) : Option Nat → InteractionGraph → Prop where
  | nothing {g' : InteractionGraph} (hgrown : g.GrownTo g') : Records g none g'
  | first {g₀ : InteractionGraph} {a b : LogicalQubit} (hgrown : g.GrownTo g₀) :
      Records g (some g.interactions.size) (g₀.introduce a b)
  | again {g₀ : InteractionGraph} {i : Nat} {e : Interaction} (hgrown : g.GrownTo g₀)
      (he : g.interactions[i]? = some e) : Records g (some i) (g₀.reinforce i e)

theorem records_meet (h : g₀.WellFormed) (hgrown : g.GrownTo g₀) (a b : LogicalQubit) :
    g.Records (some (g₀.meet a b).1) (g₀.meet a b).2 := by
  rcases meet_cases h a b with ⟨i, e, -, he, -, hmeet⟩ | ⟨-, hmeet⟩
  · rw [hmeet]
    rw [hgrown.interactions] at he
    exact .again hgrown he
  · rw [hmeet, hgrown.interactions]
    exact .first hgrown

theorem records_after (h : g.WellFormed) (c : Request) : g.Records (g.recorded? c) (g.after c) := by
  have heffect := effect_answer h c
  cases c with
  | addQubit name => exact .nothing (grownTo_addQubit g name)
  | addBit name => exact .nothing (grownTo_addBit g name)
  | recordNamed a b =>
    rw [after, recorded?]
    simp only [answer] at heffect ⊢
    generalize g.recordNamed a b = r at heffect ⊢
    cases heffect with
    | refused _ => exact .nothing (.refl g)
    | recordNamed hab => exact records_meet (h.addBoth a b) (grownTo_addBoth g a b) _ _
  | record a b =>
    rw [after, recorded?]
    simp only [answer] at heffect ⊢
    generalize g.record a b = r at heffect ⊢
    cases heffect with
    | refused _ => exact .nothing (.refl g)
    | record ha hb hab => exact records_meet h (.refl g) a b

/-! ## One request -/

theorem getElem?_introduce (g : InteractionGraph) (a b : LogicalQubit) :
    (g.introduce a b).interactions[g.interactions.size]? =
      some ⟨a, b, Interaction.initialWeight, g.jointUsage a b⟩ :=
  Array.getElem?_push_size

theorem getElem?_reinforce (he : g.interactions[i]? = some e) :
    (g.reinforce i e).interactions[i]? = some { e with
      weight := e.weight + damped (g.intervening e),
      baseline := (g.reinforce i e).jointUsage e.first e.second } := by
  obtain ⟨hlt, -⟩ := Array.getElem?_eq_some_iff.mp he
  exact Array.getElem?_setIfInBounds_self_of_lt hlt

section

variable {n : Option Nat}

/-- An interaction in which nothing is recorded stays as it is. -/
theorem Records.keeps (h : g.Records n g') (he : g.interactions[j]? = some e) (hj : n ≠ some j) :
    g'.interactions[j]? = some e := by
  cases h with
  | nothing hgrown => rw [hgrown.interactions, he]
  | @first g₀ a b hgrown =>
    obtain ⟨hlt, -⟩ := Array.getElem?_eq_some_iff.mp he
    simp only [introduce, enlist, hgrown.interactions]
    rw [Array.getElem?_push_lt hlt, ← he, Array.getElem?_eq_getElem hlt]
  | @again g₀ i e' hgrown he' =>
    have hij : i ≠ j := fun heq => hj (congrArg some heq)
    simp only [reinforce, use, hgrown.interactions]
    rw [Array.getElem?_setIfInBounds_ne hij, he]

/-- What is recorded keeps the joint usage of its qubits as it is by then. -/
theorem Records.current (h : g.Records (some i) g') :
    ∃ e, g'.interactions[i]? = some e ∧ e.baseline = g'.jointUsage e.first e.second := by
  generalize hn : some i = n at h
  cases h with
  | nothing => cases hn
  | @first g₀ a b hgrown =>
    obtain rfl := Option.some.inj hn
    rw [← hgrown.interactions]
    refine ⟨_, getElem?_introduce g₀ a b, ?_⟩
    simp only [jointUsage, usage_introduce]
  | @again g₀ i' e hgrown he =>
    obtain rfl := Option.some.inj hn
    rw [← hgrown.interactions] at he
    exact ⟨_, getElem?_reinforce he, rfl⟩

/-- What is recorded in an interaction that is there adds to its weight, damped by what happened
since. -/
theorem Records.reinforces (h : g.Records (some i) g') (he : g.interactions[i]? = some e) :
    g'.interactions[i]? = some { e with
      weight := e.weight + damped (g.intervening e),
      baseline := g'.jointUsage e.first e.second } := by
  generalize hn : some i = n at h
  cases h with
  | nothing => cases hn
  | first =>
    obtain ⟨hlt, -⟩ := Array.getElem?_eq_some_iff.mp he
    exact absurd (Option.some.inj hn) (Nat.ne_of_lt hlt)
  | @again g₀ i' e' hgrown he' =>
    obtain rfl := Option.some.inj hn
    obtain rfl := Option.some.inj (he.symm.trans he')
    have hjoint : g₀.jointUsage e.first e.second = g.jointUsage e.first e.second := by
      rw [jointUsage, hgrown.usage, hgrown.usage, jointUsage]
    have hsame : g₀.intervening e = g.intervening e := by
      unfold intervening
      rw [hjoint]
    rw [← hgrown.interactions] at he
    rw [← hsame]
    exact getElem?_reinforce he

/-- Interactions are there already, or recorded as new ones. -/
theorem Records.lt_or_eq (h : g.Records n g') (hj : j < g'.interactions.size) :
    j < g.interactions.size ∨ n = some j := by
  cases h with
  | nothing hgrown =>
    rw [hgrown.interactions] at hj
    exact Or.inl hj
  | first hgrown =>
    simp only [introduce, enlist, hgrown.interactions, Array.size_push] at hj
    rcases Nat.lt_succ_iff_lt_or_eq.mp hj with hlt | heq
    · exact Or.inl hlt
    · exact Or.inr (congrArg some heq.symm)
  | again hgrown =>
    rw [reinforce, Array.size_setIfInBounds] at hj
    exact Or.inl (hgrown.interactions ▸ hj)

theorem length_partner? (c : LogicalQubit × LogicalQubit) :
    (partner? q c).toList.length = if q = c.1 ∨ q = c.2 then 1 else 0 := by
  rw [partner?]
  by_cases hfirst : c.1 = q
  · simp [hfirst]
  · by_cases hsecond : c.2 = q
    · simp [hfirst, hsecond]
    · simp [hfirst, hsecond, Ne.symm hfirst, Ne.symm hsecond]

/-- **Usage counts reinforcements**: it grows where an interaction of the qubit is there and
recorded again. -/
theorem Records.usage (h : g.Records n g') (hwf : g.WellFormed) (q : LogicalQubit) :
    g'.usage q = g.usage q +
      .ofNat ((n.filter (· < g.interactions.size)).toList.countP (· ∈ g'.incident q)) := by
  cases h with
  | nothing hgrown => simp [hgrown.usage]
  | @first g₀ a b hgrown =>
    have hnone : (some g.interactions.size).filter (· < g.interactions.size) = none := by simp
    simp [usage_introduce, hgrown.usage, hnone]
  | @again g₀ i e hgrown he =>
    obtain ⟨hlt, -⟩ := Array.getElem?_eq_some_iff.mp he
    have hpair : g.pairs[i]? = some (e.first, e.second) := by
      rw [getElem?_pairs, he, Option.map_some]
    obtain ⟨hfirst, hsecond, hne⟩ := hwf.joins _ (List.mem_of_getElem? hpair)
    have hle := hgrown.names.length_le
    rw [length_names, length_names] at hle
    rw [length_names] at hfirst hsecond
    simp only at hfirst hsecond
    have hmem : i ∈ g.incident q ↔ q = e.first ∨ q = e.second := by
      rw [hwf.mem_incident_iff, hpair]
      simp
    rw [usage_reinforce (by omega) (by omega) hne, hgrown.usage, length_partner?]
    simp [Option.filter_some_pos, hlt, incident_reinforce, hgrown.incident, hmem, List.countP_cons]

/-- What is recorded counts once for each of its qubits, as a reinforcement or among their
partners. -/
theorem Records.degree (h : g.Records n g') (hwf' : g'.WellFormed) (q : LogicalQubit) :
    (n.filter (· < g.interactions.size)).toList.countP (· ∈ g'.incident q) + g'.degree q =
      g.degree q + n.toList.countP (· ∈ g'.incident q) := by
  cases h with
  | nothing hgrown => simp [InteractionGraph.degree, hgrown.pairs]
  | @first g₀ a b hgrown =>
    have hpairs : (g₀.introduce a b).pairs = g.pairs ++ [(a, b)] := by
      rw [pairs_introduce, hgrown.pairs]
    have hmem : g.interactions.size ∈ (g₀.introduce a b).incident q ↔ q = a ∨ q = b := by
      rw [hwf'.mem_incident_iff, hpairs, ← length_pairs, List.getElem?_concat_length]
      simp
    have hone : ([(a, b)].filterMap (partner? q)).length = (partner? q (a, b)).toList.length := by
      cases hp : partner? q (a, b) <;> simp [hp]
    rw [InteractionGraph.degree, hpairs, List.filterMap_append, List.length_append, hone,
      length_partner?]
    simp [InteractionGraph.degree, hmem, List.countP_cons]
  | @again g₀ i e hgrown he =>
    obtain ⟨hlt, -⟩ := Array.getElem?_eq_some_iff.mp he
    have hpairs : (g₀.reinforce i e).pairs = g.pairs := by
      rw [pairs_reinforce (by rw [hgrown.interactions, he]), hgrown.pairs]
    rw [Option.filter_some_pos (by simpa using hlt), InteractionGraph.degree, hpairs, Nat.add_comm]
    rfl

end

/-! ## Requests in a row -/

theorem recorded?_lt (h : g.WellFormed) (hi : g.recorded? c = some i) :
    i < (g.after c).interactions.size := by
  have hrecords := records_after h c
  rw [hi] at hrecords
  obtain ⟨e, he, -⟩ := hrecords.current
  exact (Array.getElem?_eq_some_iff.mp he).1

theorem reinforced?_eq_some_iff :
    g.reinforced? c = some i ↔ g.recorded? c = some i ∧ i < g.interactions.size := by
  rw [reinforced?, Option.filter_eq_some_iff]
  simp

/-- The qubits of an interaction do not change. -/
theorem mem_incident_afterAll (h : g.WellFormed) (cs : List Request)
    (hj : j < g.interactions.size) :
    j ∈ (g.afterAll cs).incident q ↔ j ∈ g.incident q := by
  obtain ⟨more, hmore⟩ := (continuedBy_afterAll h cs).pairs
  rw [(h.afterAll cs).mem_incident_iff, h.mem_incident_iff, ← hmore,
    List.getElem?_append_left (by rwa [length_pairs])]

/-- Whether numbers are those of interactions of a qubit can be said later on as well. -/
theorem countP_incident_afterAll (h : g.WellFormed) (cs : List Request) (q : LogicalQubit)
    {is : List Nat} (his : ∀ i ∈ is, i < g.interactions.size) :
    is.countP (· ∈ (g.afterAll cs).incident q) = is.countP (· ∈ g.incident q) := by
  refine List.countP_congr fun i hi => ?_
  simp only [decide_eq_true_iff, mem_incident_afterAll h cs (his i hi)]

theorem lt_of_mem_recorded? (h : g.WellFormed) :
    ∀ i ∈ (g.recorded? c).toList, i < (g.after c).interactions.size := by
  intro i hi
  exact recorded?_lt h (Option.mem_toList.mp hi)

theorem lt_of_mem_reinforced? (h : g.WellFormed) :
    ∀ i ∈ (g.reinforced? c).toList, i < (g.after c).interactions.size := by
  intro i hi
  exact recorded?_lt h (reinforced?_eq_some_iff.mp (Option.mem_toList.mp hi)).1

/-- How often requests have reinforced interactions of a qubit. -/
def timesUsed (g : InteractionGraph) (cs : List Request) (q : LogicalQubit) : Nat :=
  (g.reinforcements cs).countP (· ∈ (g.afterAll cs).incident q)

theorem timesUsed_cons (h : g.WellFormed) (c : Request) (cs : List Request) (q : LogicalQubit) :
    g.timesUsed (c :: cs) q =
      (g.reinforced? c).toList.countP (· ∈ (g.after c).incident q) +
      (g.after c).timesUsed cs q := by
  rw [timesUsed, reinforcements, logOf, List.countP_append, afterAll_cons,
    countP_incident_afterAll (h.after c) cs q (lt_of_mem_reinforced? h)]
  rfl

/-- **Usage** counts, in 32 bits, how often interactions of a qubit have been reinforced. -/
theorem usage_afterAll_eq (h : g.WellFormed) (cs : List Request) (q : LogicalQubit) :
    (g.afterAll cs).usage q = g.usage q + .ofNat (g.timesUsed cs q) := by
  induction cs generalizing g with
  | nil => exact (UInt32.add_zero _).symm
  | cons c cs ih =>
    rw [afterAll_cons, ih (h.after c), (records_after h c).usage h, timesUsed_cons h,
      UInt32.ofNat_add, UInt32.add_assoc]
    rfl

theorem usage_afterAll_empty (cs : List Request) (q : LogicalQubit) :
    (empty.afterAll cs).usage q = .ofNat (empty.timesUsed cs q) := by
  rw [usage_afterAll_eq wellFormed_empty]
  exact UInt32.zero_add _

/-- All meetings of a qubit that are recorded are reinforcements or make new partners. -/
theorem timesUsed_add_degree (h : g.WellFormed) (cs : List Request) (q : LogicalQubit) :
    g.timesUsed cs q + (g.afterAll cs).degree q =
      g.degree q + (g.recordings cs).countP (· ∈ (g.afterAll cs).incident q) := by
  induction cs generalizing g with
  | nil => simp [timesUsed, logOf]
  | cons c cs ih =>
    have hstep := (records_after h c).degree (h.after c) q
    have hrest := ih (h.after c)
    rw [recordings] at hrest
    rw [timesUsed_cons h, recordings, logOf, List.countP_append, afterAll_cons,
      countP_incident_afterAll (h.after c) cs q (lt_of_mem_recorded? h)]
    rw [← reinforced?] at hstep
    omega

theorem lt_of_mem_reinforcements (h : g.WellFormed) :
    ∀ i ∈ g.reinforcements cs, i < (g.afterAll cs).interactions.size := by
  induction cs generalizing g with
  | nil => simp [logOf]
  | cons c cs ih =>
    intro i hi
    rw [reinforcements, logOf, List.mem_append] at hi
    rcases hi with hi | hi
    · obtain ⟨more, hmore⟩ := (continuedBy_afterAll (h.after c) cs).pairs
      have hlt := lt_of_mem_reinforced? h i hi
      have hlength := congrArg List.length hmore
      rw [List.length_append, length_pairs, length_pairs] at hlength
      rw [afterAll_cons]
      omega
    · exact ih (h.after c) i hi

theorem logOf_append (what : InteractionGraph → Request → Option Nat) (g : InteractionGraph)
    (cs ds : List Request) :
    g.logOf what (cs ++ ds) = g.logOf what cs ++ (g.afterAll cs).logOf what ds := by
  induction cs generalizing g with
  | nil => rfl
  | cons c cs ih => rw [List.cons_append, logOf, ih, logOf, List.append_assoc, afterAll_cons]

/-- What is used in the end has been used by some time, or since then. -/
theorem timesUsed_append (h : g.WellFormed) (cs ds : List Request) (q : LogicalQubit) :
    g.timesUsed (cs ++ ds) q = g.timesUsed cs q + (g.afterAll cs).timesUsed ds q := by
  rw [timesUsed, reinforcements, logOf_append, List.countP_append, afterAll_append,
    countP_incident_afterAll (h.afterAll cs) ds q (lt_of_mem_reinforcements h)]
  rfl

theorem getElem?_afterAll (h : g.WellFormed) (he : g.interactions[j]? = some e)
    (hj : j ∉ g.recordings cs) :
    (g.afterAll cs).interactions[j]? = some e := by
  induction cs generalizing g with
  | nil => exact he
  | cons c cs ih =>
    rw [recordings, logOf, List.mem_append, not_or, Option.mem_toList] at hj
    exact ih (h.after c) ((records_after h c).keeps he hj.1) hj.2

/-- An interaction that is there in the end was there before or has been recorded. -/
theorem mem_recordings_of_lt (h : g.WellFormed) (hi : i < (g.afterAll cs).interactions.size) :
    i < g.interactions.size ∨ i ∈ g.recordings cs := by
  induction cs generalizing g with
  | nil => exact Or.inl hi
  | cons c cs ih =>
    rw [recordings, logOf, List.mem_append, Option.mem_toList]
    rcases ih (h.after c) hi with hlt | hmem
    · exact ((records_after h c).lt_or_eq hlt).imp_right Or.inl
    · exact Or.inr (Or.inr hmem)

theorem mem_recordings_of_mem_reinforcements (hi : i ∈ g.reinforcements cs) :
    i ∈ g.recordings cs := by
  induction cs generalizing g with
  | nil => exact hi
  | cons c cs ih =>
    rw [reinforcements, logOf, List.mem_append, Option.mem_toList] at hi
    rw [recordings, logOf, List.mem_append, Option.mem_toList]
    exact hi.imp (fun hc => (reinforced?_eq_some_iff.mp hc).1) ih

/-! ## Since the last meeting -/

/-- The last of the requests that records a meeting in interaction `i`, between those before and
behind it. -/
structure LastRecording (g : InteractionGraph) (cs : List Request) (i : Nat) (before : List Request)
    (last : Request) (since : List Request) : Prop where
  split : cs = before ++ last :: since
  recorded : (g.afterAll before).recorded? last = some i
  quiet : i ∉ (g.afterAll (before ++ [last])).recordings since

theorem exists_lastRecording (hi : i ∈ g.recordings cs) :
    ∃ before last since, g.LastRecording cs i before last since := by
  induction cs generalizing g with
  | nil => exact absurd hi List.not_mem_nil
  | cons c cs ih =>
    by_cases hlater : i ∈ (g.after c).recordings cs
    · obtain ⟨before, last, since, hsplit, hrecorded, hquiet⟩ := ih hlater
      exact ⟨c :: before, last, since, congrArg (c :: ·) hsplit, hrecorded, hquiet⟩
    · rw [recordings, logOf, List.mem_append, Option.mem_toList] at hi
      exact ⟨[], c, cs, rfl, hi.resolve_right hlater, hlater⟩

/-- No other interaction joins the two qubits of an interaction. -/
theorem WellFormed.not_incident_both (h : g.WellFormed) (he : g.interactions[i]? = some e)
    (hj : j ≠ i) :
    ¬(j ∈ g.incident e.first ∧ j ∈ g.incident e.second) := by
  rintro ⟨hfirst, hsecond⟩
  have hi : g.pairs[i]? = some (e.first, e.second) := by rw [getElem?_pairs, he, Option.map_some]
  obtain ⟨-, -, hne⟩ := h.joins _ (List.mem_of_getElem? hi)
  obtain ⟨⟨a, b⟩, hc, -⟩ := h.mem_incident_iff.mp hfirst
  simp only [h.mem_incident_iff, hc, Option.some.injEq, exists_eq_left'] at hfirst hsecond
  apply hj
  refine h.unrepeated.eq_of_getElem? (a := e.first) (b := e.second) ?_ (Or.inl hi)
  rw [hc]
  simp only at hne ⊢
  rcases hfirst with rfl | rfl <;> rcases hsecond with hb | hb
  · exact absurd hb.symm hne
  · exact Or.inl (by rw [hb])
  · exact Or.inr (by rw [hb])
  · exact absurd hb.symm hne

theorem countP_or_eq {α : Type} {p q : α → Bool} {xs : List α} (h : ∀ x ∈ xs, ¬(p x ∧ q x)) :
    xs.countP (fun x => p x || q x) = xs.countP p + xs.countP q := by
  induction xs with
  | nil => rfl
  | cons x xs ih =>
    obtain ⟨hx, hxs⟩ := List.forall_mem_cons.mp h
    simp only [List.countP_cons, ih hxs]
    cases hp : p x <;> cases hq : q x
    · simp
    · simp [Nat.add_assoc]
    · simp [Nat.add_right_comm]
    · exact absurd ⟨hp, hq⟩ hx

/-- Another interaction than `i` that has a qubit in common with it. -/
def Beside (g : InteractionGraph) (i : Nat) (e : Interaction) (j : Nat) : Prop :=
  j ≠ i ∧ (j ∈ g.incident e.first ∨ j ∈ g.incident e.second)

instance (g : InteractionGraph) (i : Nat) (e : Interaction) : DecidablePred (g.Beside i e) :=
  fun _ => inferInstanceAs (Decidable (_ ∧ _))

/-- **What damps an interaction**: it has kept how often its qubits had been used by the time when
it was last recorded, and since then they have been used in other interactions beside it only. -/
theorem LastRecording.counts {before since : List Request} {last : Request}
    (h : empty.LastRecording cs i before last since)
    (he : (empty.afterAll cs).interactions[i]? = some e) :
    ∃ kept, e.baseline = .ofNat kept ∧
      empty.timesUsed cs e.first + empty.timesUsed cs e.second = kept +
        ((empty.afterAll (before ++ [last])).reinforcements since).countP
          ((empty.afterAll cs).Beside i e) := by
  obtain ⟨rfl, hrecorded, hquiet⟩ := h
  have hthen := wellFormed_empty.afterAll (before ++ [last])
  have hnow := wellFormed_empty.afterAll (before ++ last :: since)
  have hsplit : before ++ last :: since = (before ++ [last]) ++ since := by simp
  have hlast : empty.afterAll (before ++ [last]) = (empty.afterAll before).after last := by
    rw [afterAll_append, afterAll_cons, afterAll_nil]
  -- the interaction is as the last meeting has left it
  have hrecords := records_after (wellFormed_empty.afterAll before) last
  rw [hrecorded, ← hlast] at hrecords
  obtain ⟨e', he', hbaseline⟩ := hrecords.current
  have hkept := getElem?_afterAll hthen he' hquiet
  rw [← afterAll_append, ← hsplit] at hkept
  obtain rfl := Option.some.inj (hkept.symm.trans he)
  refine ⟨empty.timesUsed (before ++ [last]) e'.first +
    empty.timesUsed (before ++ [last]) e'.second, ?_, ?_⟩
  · rw [hbaseline, jointUsage, usage_afterAll_empty, usage_afterAll_empty, UInt32.ofNat_add]
  · have hother : ∀ j ∈ (empty.afterAll (before ++ [last])).reinforcements since, j ≠ i := by
      rintro j hj rfl
      exact hquiet (mem_recordings_of_mem_reinforcements hj)
    have hbeside : ((empty.afterAll (before ++ [last])).reinforcements since).countP
        ((empty.afterAll (before ++ last :: since)).Beside i e') =
        (empty.afterAll (before ++ [last])).timesUsed since e'.first +
          (empty.afterAll (before ++ [last])).timesUsed since e'.second := by
      rw [timesUsed, timesUsed, ← afterAll_append, ← hsplit, ← countP_or_eq]
      · refine List.countP_congr fun j hj => ?_
        simp [Beside, hother j hj]
      · intro j hj
        simpa using hnow.not_incident_both he (hother j hj)
    rw [hbeside, hsplit, timesUsed_append wellFormed_empty (before ++ [last]) since,
      timesUsed_append wellFormed_empty (before ++ [last]) since]
    exact Nat.add_add_add_comm _ _ _ _

/-! ## The whole history -/

/-- Of no two qubits that interact have interactions been reinforced more often than 32 bits can
count. -/
def CountersSuffice (cs : List Request) : Prop :=
  ∀ e ∈ (empty.afterAll cs).interactions,
    empty.timesUsed cs e.first + empty.timesUsed cs e.second < UInt32.size

instance (cs : List Request) : Decidable (CountersSuffice cs) :=
  inferInstanceAs (Decidable (∀ e ∈ (empty.afterAll cs).interactions,
    empty.timesUsed cs e.first + empty.timesUsed cs e.second < UInt32.size))

theorem CountersSuffice.timesUsed_lt (h : CountersSuffice cs) (q : LogicalQubit) :
    empty.timesUsed cs q < UInt32.size := by
  by_contra hge
  have hpos : 0 < empty.timesUsed cs q := by
    rw [UInt32.size] at hge
    omega
  obtain ⟨i, -, hi⟩ := List.countP_pos_iff.mp hpos
  obtain ⟨c, hc, hq⟩ := (wellFormed_empty.afterAll cs).mem_incident_iff.mp (of_decide_eq_true hi)
  rw [getElem?_pairs] at hc
  obtain ⟨e, he, rfl⟩ := Option.map_eq_some_iff.mp hc
  have hsum := h e (Array.mem_of_getElem? he)
  rcases hq with rfl | rfl
  · exact hge (Nat.lt_of_le_of_lt (Nat.le_add_right _ _) hsum)
  · exact hge (Nat.lt_of_le_of_lt (Nat.le_add_left _ _) hsum)

/-- Where counters suffice, what has been added to a counter is its difference to what was kept. -/
theorem toNat_intervening {kept since : Nat} (hlt : kept + since < UInt32.size)
    (hbaseline : e.baseline = .ofNat kept)
    (hjoint : g.jointUsage e.first e.second = .ofNat (kept + since)) :
    e.baseline ≤ g.jointUsage e.first e.second ∧ (g.intervening e).toNat = since := by
  have hle : e.baseline ≤ g.jointUsage e.first e.second := by
    rw [hbaseline, hjoint, UInt32.le_iff_toNat_le, UInt32.toNat_ofNat_of_lt' hlt,
      UInt32.toNat_ofNat_of_lt' (by omega)]
    exact Nat.le_add_right kept since
  refine ⟨hle, ?_⟩
  rw [intervening, if_pos hle, hbaseline, hjoint, UInt32.ofNat_add, UInt32.add_comm,
    UInt32.add_sub_cancel]
  exact UInt32.toNat_ofNat_of_lt' (by omega)

/-- **Damping counts what happened in between**, after any requests to an empty graph, as long as
the counters suffice. A request that reinforces an interaction adds to its weight, damped by the
number of times that other interactions of its two qubits have been reinforced since it was last
recorded. The baseline of an interaction never exceeds the joint usage of its qubits, and the usage
of a qubit is the number of its recorded meetings, less the number of its different partners. -/
theorem damping_exact (cs : List Request) (hcounters : CountersSuffice cs) :
    let g := empty.afterAll cs
    (∀ c i e, g.reinforced? c = some i → g.interactions[i]? = some e →
      ∃ before last since, empty.LastRecording cs i before last since ∧
        let n := ((empty.afterAll (before ++ [last])).reinforcements since).countP (g.Beside i e)
        (g.intervening e).toNat = n ∧
          (g.after c).interactions[i]? = some { e with
            weight := e.weight + Interaction.weightIncrement / (1.0 + Float.ofNat n),
            baseline := (g.after c).jointUsage e.first e.second }) ∧
      (∀ e ∈ g.interactions, e.baseline ≤ g.jointUsage e.first e.second) ∧
      ∀ q, (g.usage q).toNat + ((g.partners q).map (·.1)).toFinset.card =
        (empty.recordings cs).countP (· ∈ g.incident q) := by
  intro g
  have hg : g.WellFormed := wellFormed_empty.afterAll cs
  have hhistory : ∀ {i e}, g.interactions[i]? = some e → ∃ before last since,
      empty.LastRecording cs i before last since ∧ e.baseline ≤ g.jointUsage e.first e.second ∧
        (g.intervening e).toNat =
          ((empty.afterAll (before ++ [last])).reinforcements since).countP (g.Beside i e) := by
    intro i e he
    have hlt := (Array.getElem?_eq_some_iff.mp he).1
    have hmem : i ∈ empty.recordings cs :=
      (mem_recordings_of_lt wellFormed_empty hlt).resolve_left (by simp [empty])
    obtain ⟨before, last, since, hlast⟩ := exists_lastRecording hmem
    obtain ⟨kept, hbaseline, hsum⟩ := hlast.counts he
    have hsuffice := hcounters e (Array.mem_of_getElem? he)
    rw [hsum] at hsuffice
    refine ⟨before, last, since, hlast, toNat_intervening hsuffice hbaseline ?_⟩
    rw [← hsum, jointUsage, usage_afterAll_empty, usage_afterAll_empty, UInt32.ofNat_add]
  refine ⟨?_, ?_, ?_⟩
  · intro c i e hc he
    obtain ⟨before, last, since, hlast, -, hcount⟩ := hhistory he
    have hrecords := records_after hg c
    rw [(reinforced?_eq_some_iff.mp hc).1] at hrecords
    refine ⟨before, last, since, hlast, hcount, ?_⟩
    rw [← hcount]
    exact hrecords.reinforces he
  · intro e he
    obtain ⟨i, hi⟩ := Array.mem_iff_getElem?.mp he
    obtain ⟨-, -, -, -, hle, -⟩ := hhistory hi
    exact hle
  · intro q
    have hcount := timesUsed_add_degree wellFormed_empty cs q
    have hnone : empty.degree q = 0 := by simp [empty, degree, pairs]
    rw [hnone, Nat.zero_add] at hcount
    rw [hg.map_fst_partners, List.toFinset_card_of_nodup (hg.unrepeated.nodup_partners q),
      usage_afterAll_empty, UInt32.toNat_ofNat_of_lt' (hcounters.timesUsed_lt q)]
    exact hcount

/-- Two qubits meet twice, and one of them then meets a third one three times. When the two meet
again, this counts as two reinforcements beside their own interaction. -/
theorem damping_exact_three :
    let cs : List Request := [.recordNamed "a" "b", .recordNamed "b" "a", .recordNamed "a" "c",
      .recordNamed "c" "a", .recordNamed "a" "c"]
    let g := empty.afterAll cs
    CountersSuffice cs ∧ g.reinforced? (.recordNamed "a" "b") = some 0 ∧
      ∃ e, g.interactions[0]? = some e ∧
        ∃ before last since, empty.LastRecording cs 0 before last since ∧
          ((empty.afterAll (before ++ [last])).reinforcements since).countP (g.Beside 0 e) = 2 := by
  intro cs g
  have hcounters : CountersSuffice cs := by decide +kernel
  have hreinforced : g.reinforced? (.recordNamed "a" "b") = some 0 := by decide +kernel
  have hbetween : g.interactions[0]?.map (fun e => (g.intervening e).toNat) = some 2 := by
    decide +kernel
  obtain ⟨e, he, hcount⟩ := Option.map_eq_some_iff.mp hbetween
  obtain ⟨before, last, since, hlast, hn, -⟩ := (damping_exact cs hcounters).1 _ 0 e hreinforced he
  exact ⟨hcounters, hreinforced, e, he, before, last, since, hlast, hn.symm.trans hcount⟩

end InteractionGraph

end QubitRouting
