import QubitRouting.Proofs.Mapping.Accounts
import QubitRouting.Proofs.Mapping.Success
import QubitRouting.Proofs.Placement.Seed

/-!
# Circuits that need no swaps

A gate whose qubits sit on linked places is written without a swap, and everybody stays where they
are. So a circuit all of whose pairs are linked by the placement is written as it is
(`Emits.unswapped`). In every circuit the placement links some pair that meets
(`exists_meeting_linked`). If there is only one pair, then no swap is ever inserted.
-/

set_option autoImplicit false

namespace QubitRouting

namespace Pass

variable {s s' : Session} {costs : CostModel} {src : List (Instruction String)} {e : Emission}

/-- The qubits of these two names sit on linked places. -/
def Linked (s : Session) (a b : String) : Prop :=
  ∃ p q, Sits s a p ∧ Sits s b q ∧ s.topology.adjacent p q

theorem Linked.symm {a b : String} (h : Linked s a b) : Linked s b a := by
  obtain ⟨p, q, hp, hq, hlinked⟩ := h
  rw [Topology.adjacent_comm] at hlinked
  exact ⟨q, p, hq, hp, hlinked⟩

/-! ## Gates across links -/

theorem swapsBetween_of_linked {a b : String} {placed : Placed} {swaps : List Swap}
    (h : Linked s a b) (hswaps : s.swapsBetween a b = .ok (placed, swaps)) : swaps = [] := by
  obtain ⟨la, lb, hla, hlb, hplaced, hroute⟩ := Session.swapsBetween_eq_ok_iff.mp hswaps
  obtain ⟨p, q, hp, hq, hlinked⟩ := h
  have hne := (Router.brings_together hroute).1
  have hnone := Router.swapsFor_of_adjacent (g := s.graph) s.router hne
    (physical_of_sits hplaced hla hp) (physical_of_sits hplaced hlb hq) hlinked
  exact Except.ok.inj (hroute.symm.trans hnone)

/-- An instruction across a link is approached without a swap. -/
theorem Approached.swaps_eq_nil {i : Instruction String} {swaps : List Swap}
    (h : Approached s i swaps s')
    (hlinked : ∀ c, i.pair? = some c → Linked s c.1 c.2) : swaps = [] := by
  cases h with
  | pair name params hswaps => exact swapsBetween_of_linked (hlinked _ rfl) hswaps
  | other hi => rfl

theorem Approached.topology_eq {i : Instruction String} {swaps : List Swap}
    (h : Approached s i swaps s') : s'.topology = s.topology := by
  cases h with
  | pair name params hswaps => rfl
  | other hi => rfl

/-- Without a swap everybody stays. -/
theorem Approached.sits_eq {i : Instruction String} (h : Approached s i [] s') :
    Sits s' = Sits s := by
  funext name q
  refine propext (h.sits_iff.trans ?_)
  simp only [Swap.carry_nil, exists_eq_right]

/-- **Where all pairs are linked the circuit is written as it is.** -/
theorem Emits.unswapped (h : Emits costs s src e s')
    (hlinked : ∀ c ∈ meetings src, Linked s c.1 c.2) :
    s'.swaps = s.swaps ∧ List.Forall₂ (Instruction.Related (Sits s)) src e.instructions := by
  induction src generalizing s e with
  | nil =>
    obtain ⟨rfl, rfl⟩ := emits_nil.mp h
    exact ⟨rfl, .nil⟩
  | cons i src ih =>
    obtain ⟨swaps, j, s₁, e', happ, hij, hrest, rfl⟩ := emits_cons.mp h
    obtain rfl : swaps = [] := happ.swaps_eq_nil fun c hc =>
      hlinked c (List.mem_filterMap.mpr ⟨i, List.mem_cons_self, hc⟩)
    have hlinked₁ : ∀ c ∈ meetings src, Linked s₁ c.1 c.2 := by
      intro c hc
      obtain ⟨k, hk, hkc⟩ := List.mem_filterMap.mp hc
      rw [Linked, happ.sits_eq, happ.topology_eq]
      exact hlinked c (List.mem_filterMap.mpr ⟨k, List.mem_cons_of_mem i hk, hkc⟩)
    obtain ⟨hswaps, hwritten⟩ := ih hrest hlinked₁
    rw [happ.sits_eq] at hij hwritten
    rw [written_nil]
    exact ⟨hswaps.trans happ.counters.2, .cons hij hwritten⟩

/-! ## The pair that the placement links -/

/-- **Some pair of every circuit is linked by the placement**, if any qubits meet at all. -/
theorem exists_meeting_linked {p : Program} {r : Registers} {t : Topology}
    {settings : MapperSettings} {m : Layout} (hcollect : Gives (collect p) (settings.session t) r s)
    (hsrc : r.circuit p = .ok src)
    (hmeet : meetings src ≠ []) (hplace : Gives Session.place s m s') :
    ∃ c ∈ meetings src, Linked s' c.1 c.2 := by
  obtain ⟨rfl, src', hsrc', -, hnoted⟩ := noted_of_gives_collect hcollect
  obtain rfl := Except.ok.inj (hsrc.symm.trans hsrc')
  obtain ⟨hvalid, -, -⟩ := placed_of_noted hnoted hplace
  obtain ⟨-, cs, hcs, hplain, rfl⟩ := gives_collect_fresh_iff.mp hcollect
  obtain ⟨names, src', -, hsrc', hasks⟩ := asks_of_gather_requests hcs
  obtain rfl := Except.ok.inj (hsrc.symm.trans hsrc')
  obtain ⟨hm, rfl⟩ := (gives_place_iff rfl).mp hplace
  obtain ⟨c, hc, q, q', hq, hq', hlinked⟩ :=
    Placement.exists_pair_adjacent hnoted.wellFormed (hnoted.pairs.mpr (.inr hmeet)) hm
  have hnames : Linked { asked (settings.session t) cs with placed := some ⟨m, m⟩ }
      ((asked (settings.session t) cs).graph.nameOf c.1)
        ((asked (settings.session t) cs).graph.nameOf c.2) :=
    ⟨q, q', sits_nameOf hvalid rfl hq, sits_nameOf hvalid rfl hq', hlinked⟩
  -- two qubits that interact have met, in one order or the other
  obtain ⟨i, hi, rfl⟩ := List.mem_map.mp hc
  have hjoined :=
    (InteractionGraph.joined_afterAll hplain).mp ⟨i, Array.mem_toList_iff.mp hi, Or.inl rfl⟩
  rw [hasks.pairs] at hjoined
  rcases hjoined with hmet | hmet
  · exact ⟨_, hmet, hnames⟩
  · exact ⟨_, hmet, hnames.symm⟩

/-- Where a single pair meets, all meetings are across the link that the placement gave it. -/
theorem linked_of_single_pair {p : Program} {r : Registers} {t : Topology}
    {settings : MapperSettings}
    {m : Layout} {a b : String} (hcollect : Gives (collect p) (settings.session t) r s)
    (hsrc : r.circuit p = .ok src) (hmeet : meetings src ≠ []) (hplace : Gives Session.place s m s')
    (hsame : ∀ c ∈ meetings src, c = (a, b) ∨ c = (b, a)) :
    ∀ c ∈ meetings src, Linked s' c.1 c.2 := by
  have hab : Linked s' a b := by
    obtain ⟨c, hc, hlinked⟩ := exists_meeting_linked hcollect hsrc hmeet hplace
    rcases hsame c hc with rfl | rfl
    · exact hlinked
    · exact hlinked.symm
  intro c hc
  rcases hsame c hc with rfl | rfl
  · exact hab
  · exact hab.symm

/-- After collection and placement in a fresh session no swap has been counted. -/
theorem swaps_of_noted {names : List String} {pairs : List (String × String)} {t : Topology}
    {settings : MapperSettings} {m : Layout} (h : Noted (settings.session t) names pairs s)
    (hplace : Gives Session.place s m s') : s'.swaps = 0 := by
  have hopen : s.placed = none := by rw [h.frame]; rfl
  obtain ⟨-, rfl⟩ := (gives_place_iff hopen).mp hplace
  rw [h.frame]
  rfl

/-- **A single pair never costs a swap**: suppose that collection succeeds in a fresh session,
whatever its settings, and that the circuit has a gate on two qubits, but no such gate on others
than `a` and `b`. On a connected device with room for all qubits of the program, placement and the
second pass then succeed as well. The report counts no swap, and the output is the circuit on the
places of the placement. -/
theorem single_pair_unswapped {p : Program} {r : Registers} {t : Topology}
    {settings : MapperSettings} {a b : String} (costs : CostModel)
    (hcollect : (collect p).run.run (settings.session t) = (.ok r, s))
    (hsrc : r.circuit p = .ok src) (hsome : ∃ name params x y, .gate name params [x, y] ∈ src)
    (hpair : ∀ name params x y, .gate name params [x, y] ∈ src → (x, y) = (a, b) ∨ (x, y) = (b, a))
    (hconn : t.Connected)
    (hroom : (r.qubitNames ++ src.flatMap (·.qubits)).toFinset.card ≤ t.size) :
    ∃ m s₁ out s₂, Session.place.run.run s = (.ok m, s₁) ∧
      (emit p r costs).run.run s₁ = (.ok out, s₂) ∧
      (run p costs).run.run (settings.session t) = (.ok out, s₂) ∧ out.report.metrics.swaps = 0 ∧
      List.Forall₂ (Instruction.Related (Sits s₁)) src out.circuit.instructions := by
  have hmeet := meetings_ne_nil_iff.mpr hsome
  obtain ⟨rfl, src', hsrc', -, hnoted⟩ := noted_of_gives_collect hcollect
  obtain rfl := Except.ok.inj (hsrc.symm.trans hsrc')
  -- the program has a qubit, since some gate has
  have hpos : 1 ≤ ((Registers.ofProgram p).qubitNames ++ src.flatMap (·.qubits)).toFinset.card := by
    obtain ⟨name, params, x, y, hgate⟩ := hsome
    refine Finset.card_pos.mpr ⟨x, List.mem_toFinset.mpr (List.mem_append_right _ ?_)⟩
    exact List.mem_flatMap.mpr ⟨_, hgate, List.mem_cons_self⟩
  obtain ⟨m, s₁, hplace⟩ := (exists_place_iff hconn hnoted).mpr ⟨hpos, hroom, .inl hmeet⟩
  obtain ⟨out, s₂, hemit⟩ := exists_emit costs hconn hcollect hplace
  refine ⟨m, s₁, out, s₂, hplace, hemit,
    gives_run_iff.mpr ⟨_, s, m, s₁, hcollect, hplace, hemit⟩, ?_⟩
  have hlinked := linked_of_single_pair hcollect hsrc hmeet hplace fun c hc => by
    obtain ⟨name, params, hgate⟩ := mem_meetings.mp hc
    exact hpair name params c.1 c.2 hgate
  obtain ⟨initial, src', e, -, hsrc', hemits, rfl⟩ := gives_emit_iff.mp hemit
  obtain rfl := Except.ok.inj (hsrc.symm.trans hsrc')
  obtain ⟨hswaps, hwritten⟩ := hemits.unswapped hlinked
  exact ⟨hswaps.trans (swaps_of_noted hnoted hplace), hwritten⟩

/-- Two qubits of a register of four meet twice on a ring of five, in either order, among statements
on other qubits. -/
theorem single_pair_unswapped_ring :
    ∃ (p : Program) (s s₁ s₂ : Session) (m : Layout) (out : Mapped)
      (src : List (Instruction String)),
      Program.parse ("OPENQASM 2.0; qreg q[4]; creg c[2]; h q[0]; cx q[3],q[1]; barrier q; " ++
        "cz q[1],q[3]; reset q[2]; measure q[3] -> c[0];") = .ok p ∧
      (collect p).run.run
        ((⟨⟨false⟩, ⟨.lessConnected, .edgeScore⟩⟩ : MapperSettings).session (.ring 5)) =
          (.ok (.ofProgram p), s) ∧
      (Registers.ofProgram p).circuit p = .ok src ∧
      meetings src = [("q[3]", "q[1]"), ("q[1]", "q[3]")] ∧
      (Topology.ring 5).Connected ∧
      Session.place.run.run s = (.ok m, s₁) ∧
      (emit p (.ofProgram p) {}).run.run s₁ = (.ok out, s₂) ∧
      (run p {}).run.run
        ((⟨⟨false⟩, ⟨.lessConnected, .edgeScore⟩⟩ : MapperSettings).session (.ring 5)) =
          (.ok out, s₂) ∧
      out.report.metrics.swaps = 0 ∧
      List.Forall₂ (Instruction.Related (Sits s₁)) src out.circuit.instructions := by
  let settings : MapperSettings := ⟨⟨false⟩, ⟨.lessConnected, .edgeScore⟩⟩
  let p : Program := ⟨"2.0",
    [.qreg ⟨"q", 4⟩, .creg ⟨"c", 2⟩, .gate ⟨"h", none, [⟨"q", some 0⟩], 1⟩,
      .gate ⟨"cx", none, [⟨"q", some 3⟩, ⟨"q", some 1⟩], 1⟩, .barrier [⟨"q", none⟩],
      .gate ⟨"cz", none, [⟨"q", some 1⟩, ⟨"q", some 3⟩], 1⟩, .reset ⟨"q", some 2⟩,
      .measure ⟨"q", some 3⟩ ⟨"c", some 0⟩]⟩
  let src : List (Instruction String) :=
    [.creg ⟨"c", 2⟩, .gate "h" none ["q[0]"], .gate "cx" none ["q[3]", "q[1]"],
      .barrier ["q[0]", "q[1]", "q[2]", "q[3]"], .gate "cz" none ["q[1]", "q[3]"], .reset "q[2]",
      .measure "q[3]" "c[0]"]
  have hp :
      (Program.parse ("OPENQASM 2.0; qreg q[4]; creg c[2]; h q[0]; cx q[3],q[1]; barrier q; " ++
      "cz q[1],q[3]; reset q[2]; measure q[3] -> c[0];")).toOption = some p := by
    decide +kernel
  have hcollect :
      ((collect p).run.run (settings.session (.ring 5))).1.toOption = some (.ofProgram p) := by
    decide +kernel
  obtain ⟨s, hrun⟩ := fst_run_eq_ok_iff.mp (toOption_eq_some_iff.mp hcollect)
  have hsrc : ((Registers.ofProgram p).circuit p).toOption = some src := by decide +kernel
  rw [toOption_eq_some_iff] at hp hsrc
  have hmeetings : meetings src = [("q[3]", "q[1]"), ("q[1]", "q[3]")] := rfl
  have hpair : ∀ name params x y, .gate name params [x, y] ∈ src →
      (x, y) = ("q[1]", "q[3]") ∨ (x, y) = ("q[3]", "q[1]") := by
    intro name params x y hgate
    have hmem : (x, y) ∈ meetings src := mem_meetings.mpr ⟨name, params, hgate⟩
    rw [hmeetings, List.mem_pair] at hmem
    exact hmem.symm
  have hsome := meetings_ne_nil_iff.mp (hmeetings ▸ List.cons_ne_nil _ _)
  have hconn : (Topology.ring 5).Connected := by decide +kernel
  obtain ⟨m, s₁, out, s₂, hmapped⟩ :=
    single_pair_unswapped {} hrun hsrc hsome hpair hconn (by decide +kernel)
  exact ⟨p, s, s₁, s₂, m, out, src, hp, hrun, hsrc, hmeetings, hconn, hmapped⟩

end Pass

end QubitRouting
