import Mathlib.Combinatorics.SimpleGraph.Acyclic
import QubitRouting.Proofs.Graph.Best
import QubitRouting.Proofs.Topology.Families
import QubitRouting.Proofs.Topology.Reach

/-!
# The center of a device

The center is the first qubit that reaches furthest when it may visit as many qubits as there are.
On a device without cycles this says nothing about where a qubit stands. There no two qubits in the
line of a walk are linked (`Rooted.not_adjacent`): both hang on what has been visited, so that a
link between them would close a cycle. So nobody joins the line twice, every visit is a first one
(`IsTree.visits_eq_take`), and with a budget of all qubits every walk comes to all of them. All
qubits reach equally far, and the first of them is the center.
-/

set_option autoImplicit false

namespace QubitRouting.Topology

open Walk

variable {t : Topology} {start a b u v : PhysicalQubit} {visited : Std.TreeSet PhysicalQubit}
  {line : List PhysicalQubit}

theorem exists_center_isFirstMax (hne : t.qubits ≠ []) :
    ∃ center, t.center = .ok center ∧ IsFirstMax (t.reach t.size) t.qubits center := by
  obtain ⟨center, hcenter⟩ := exists_center hne
  refine ⟨center, hcenter, ?_⟩
  rw [center_eq_ok_iff, t.center?_eq, centerOf] at hcenter
  obtain ⟨best, hbest, rfl⟩ := Option.map_eq_some_iff.mp hcenter
  apply firstLargest_isFirstMax _ hbest
  intro q _
  exact t.reach_le_size q t.size

/-! ## Trees -/

/-- The links of a device as a simple graph. -/
def coupling (t : Topology) : SimpleGraph PhysicalQubit where
  Adj a b := t.adjacent a b
  symm := ⟨fun a b hab => by rwa [adjacent_comm]⟩
  loopless := ⟨fun _ haa => (joins_of_adjacent haa).2.2 rfl⟩

/-- A connected device without cycles. -/
structure IsTree (t : Topology) : Prop where
  connected : t.Connected
  acyclic : t.coupling.IsAcyclic

/-- Where every qubit is linked to one smaller qubit at most there are no cycles: the largest qubit
of a cycle would be linked to two. -/
theorem isAcyclic_of_parent (parent : PhysicalQubit → PhysicalQubit)
    (h : ∀ q c, t.adjacent q c → c.id < q.id → c = parent q) : t.coupling.IsAcyclic := by
  intro v cycle hcycle
  obtain ⟨q, hq, hmax⟩ := Finset.exists_max_image cycle.support.toFinset PhysicalQubit.id
    ⟨v, List.mem_toFinset.mpr cycle.start_mem_support⟩
  rw [List.mem_toFinset] at hq
  have hparent : ∀ c ∈ (cycle.rotate q hq).support, t.adjacent q c → c = parent q := by
    intro c hc hadj
    rw [cycle.mem_support_rotate_iff q hq, ← List.mem_toFinset] at hc
    apply h q c hadj
    apply Nat.lt_of_le_of_ne (hmax c hc)
    intro heq
    exact (joins_of_adjacent hadj).2.2 (congrArg PhysicalQubit.mk heq.symm)
  -- seen from `q`, the cycle leaves and returns over two different neighbours
  have hturned := hcycle.rotate hq
  apply hturned.snd_ne_penultimate
  have hsnd :=
    hparent _ (SimpleGraph.Walk.getVert_mem_support _ 1) (SimpleGraph.Walk.adj_snd hturned.not_nil)
  have hlast := hparent _ (SimpleGraph.Walk.getVert_mem_support _ _)
    (SimpleGraph.Walk.adj_penultimate hturned.not_nil).symm
  exact hsnd.trans hlast.symm

/-- Qubits that hang together, each by one link to a smaller one, are a tree. -/
theorem isTree_ofNumbered {n : Nat} {links : List Link}
    {joins : ∀ l ∈ links, l.Joins (firstQubits n)}
    (hhangs : Hangs (firstQubits n) links) (parent : Nat → Nat)
    (h : ∀ i j, link i j ∈ links → i < j ∧ i = parent j) : (ofNumbered n links joins).IsTree := by
  refine ⟨connected_ofLinks_iff.mpr hhangs, ?_⟩
  apply isAcyclic_of_parent fun q => ⟨parent q.id⟩
  intro q c hadj hlt
  rcases adjacent_ofLinks.mp hadj with hlink | hlink
  · exact absurd (h q.id c.id hlink).1 (Nat.not_lt_of_gt hlt)
  · exact congrArg PhysicalQubit.mk (h c.id q.id hlink).2

theorem isTree_linear (n : Nat) : (linear n).IsTree := by
  apply isTree_ofNumbered (hangs_pathLinks n) Nat.pred
  intro i j hlink
  obtain ⟨rfl, -⟩ := mem_pathLinks.mp hlink
  exact ⟨Nat.lt_succ_self i, rfl⟩

theorem isTree_star (n : Nat) : (star n).IsTree := by
  apply isTree_ofNumbered (hangs_starLinks n) fun _ => 0
  intro i j hlink
  obtain ⟨rfl, hpos, -⟩ := mem_starLinks.mp hlink
  exact ⟨hpos, rfl⟩

/-! ## Walks through trees -/

/-- A walk from `start` on its way: what has been visited hangs together, what is in the line hangs
on it, and nobody in the line has been visited or is there twice. -/
structure Rooted (t : Topology) (start : PhysicalQubit) (visited : Std.TreeSet PhysicalQubit)
    (line : List PhysicalQubit) : Prop where
  rooted : ∀ u ∈ visited, Relation.ReflTransGen (fun x y => x ∈ visited ∧ t.adjacent x y) start u
  hangs : ∀ u ∈ line, u = start ∨ ∃ v ∈ visited, t.adjacent v u
  new : ∀ u ∈ line, u ∉ visited
  nodup : line.Nodup

theorem rooted_start (t : Topology) (start : PhysicalQubit) :
    t.Rooted start (Walk.start : Walk PhysicalQubit).visited [start] where
  rooted _ hu := absurd hu Std.TreeSet.not_mem_emptyc
  hangs _ hu := Or.inl (List.mem_singleton.mp hu)
  new _ _ := Std.TreeSet.not_mem_emptyc
  nodup := List.nodup_singleton start

/-- A link of a visited qubit is not the link between two that have not been visited. -/
theorem adj_deleteEdges (ha : a ∉ visited) (hb : b ∉ visited) (hu : u ∈ visited)
    (hadj : t.adjacent u v) :
    (t.coupling.deleteEdges {s(a, b)}).Adj u v := by
  rw [SimpleGraph.deleteEdges_adj, Set.mem_singleton_iff, Sym2.eq_iff]
  refine ⟨hadj, ?_⟩
  rintro (⟨rfl, -⟩ | ⟨rfl, -⟩)
  · exact ha hu
  · exact hb hu

theorem Rooted.reachable (h : t.Rooted start visited line) (hu : u ∈ line) (ha : a ∉ visited)
    (hb : b ∉ visited) :
    (t.coupling.deleteEdges {s(a, b)}).Reachable start u := by
  rcases h.hangs u hu with rfl | ⟨v, hv, hadj⟩
  · exact .refl u
  · have hup : (t.coupling.deleteEdges {s(a, b)}).Reachable start v := by
      rw [SimpleGraph.reachable_iff_reflTransGen]
      apply (h.rooted v hv).lift id
      intro x y hxy
      exact adj_deleteEdges ha hb hxy.1 hxy.2
    exact hup.trans (adj_deleteEdges ha hb hv hadj).reachable

/-- **In a tree no two qubits of the line are linked**: from the start a way leads to each of them
without the link between them, which is a bridge. -/
theorem Rooted.not_adjacent (h : t.Rooted start visited line) (hacyclic : t.coupling.IsAcyclic)
    (ha : a ∈ line) (hb : b ∈ line) : ¬t.adjacent a b := by
  intro hadj
  have hbridge := SimpleGraph.isAcyclic_iff_forall_adj_isBridge.mp hacyclic hadj
  rw [SimpleGraph.isBridge_iff] at hbridge
  apply hbridge
  have hnewa := h.new a ha
  have hnewb := h.new b hb
  exact (h.reachable ha hnewa hnewb).symm.trans (h.reachable hb hnewa hnewb)

/-- A visit leaves a walk through a tree as it should be. -/
theorem Rooted.step (h : t.Rooted start visited (a :: line)) (htree : t.IsTree) :
    t.Rooted start (visited.insert a) (line ++ joining t.neighbors visited a) := by
  have hkeep : ∀ u ∈ visited, u ∈ visited.insert a := fun u hu => mem_insert_iff.mpr (Or.inr hu)
  have hself : a ∈ visited.insert a := mem_insert_iff.mpr (Or.inl rfl)
  have hup : ∀ u ∈ visited,
      Relation.ReflTransGen (fun x y => x ∈ visited.insert a ∧ t.adjacent x y) start u := by
    intro u hu
    apply (h.rooted u hu).lift id
    intro x y hxy
    exact ⟨hkeep x hxy.1, hxy.2⟩
  have hline : ∀ u ∈ line, u ≠ a ∧ u ∉ visited := by
    intro u hu
    refine ⟨?_, h.new u (List.mem_cons_of_mem a hu)⟩
    rintro rfl
    exact (List.nodup_cons.mp h.nodup).1 hu
  have hjoining : ∀ u ∈ joining t.neighbors visited a, t.adjacent a u ∧ u ∉ visited.insert a := by
    intro u hu
    rw [mem_joining] at hu
    exact ⟨step_iff.mp hu.1, hu.2⟩
  constructor
  · intro u hu
    rcases mem_insert_iff.mp hu with rfl | hu
    · rcases h.hangs u List.mem_cons_self with rfl | ⟨v, hv, hadj⟩
      · exact .refl
      · exact (hup v hv).tail ⟨hkeep v hv, hadj⟩
    · exact hup u hu
  · intro u hu
    rcases List.mem_append.mp hu with hu | hu
    · rcases h.hangs u (List.mem_cons_of_mem a hu) with heq | ⟨v, hv, hadj⟩
      · exact Or.inl heq
      · exact Or.inr ⟨v, hkeep v hv, hadj⟩
    · exact Or.inr ⟨a, hself, (hjoining u hu).1⟩
  · intro u hu
    rcases List.mem_append.mp hu with hu | hu
    · rw [mem_insert_iff, not_or]
      exact hline u hu
    · exact (hjoining u hu).2
  · rw [List.nodup_append]
    refine ⟨(List.nodup_cons.mp h.nodup).2, (t.nodup_neighbors a).filter _, ?_⟩
    rintro u hu _ hu' rfl
    exact h.not_adjacent htree.acyclic List.mem_cons_self (List.mem_cons_of_mem a hu)
      (hjoining u hu').1

/-- **A walk through a tree** visits the order of the traversal, one after the other. -/
theorem IsTree.visits_eq_take (htree : t.IsTree) {w : Walk PhysicalQubit}
    {seen : PhysicalQubit → Bool}
    {queue order : List PhysicalQubit} (hsweeps : Sweeps t.neighbors seen queue order)
    (hshadows : Shadows t.neighbors w.visited (a :: w.waiting.toList) seen queue)
    (hrooted : t.Rooted start w.visited (a :: w.waiting.toList)) (budget : Nat) :
    visits t.neighbors budget w a = order.take budget := by
  induction budget generalizing w a seen queue order with
  | zero => rfl
  | succ budget ih =>
    obtain ⟨rest, rfl, hfirst⟩ := hshadows.first (hrooted.new a List.mem_cons_self)
    have hstep := hrooted.step htree
    cases hsweeps with
    | next hsweeps =>
      cases onward t.neighbors w a with
      | ends hline hvisits =>
        rw [hline] at hfirst
        rw [hvisits, List.take_succ_cons, hfirst.order_eq_nil hsweeps, List.take_nil]
      | goes next w' hvisited hline hvisits =>
        rw [hline, ← hvisited] at hfirst hstep
        rw [hvisits, List.take_succ_cons, ih hsweeps hfirst hstep]

theorem Connected.length_order (h : t.Connected) (hstart : start ∈ t.qubits) :
    (t.graph.order start).length = t.size := by
  rw [← List.toFinset_card_of_nodup (FiniteGraph.nodup_order t.graph start), ← card_qubits]
  congr 1
  ext q
  rw [List.mem_toFinset, List.mem_toFinset, h.mem_order_iff hstart]

/-- On a tree every qubit reaches all qubits, unless there is only one. -/
theorem IsTree.reach_size (h : t.IsTree) (hstart : start ∈ t.qubits) :
    t.reach t.size start = if 2 ≤ t.size then t.size else 0 := by
  have hvisits : visits t.neighbors t.size .start start = t.graph.order start := by
    rw [h.visits_eq_take (FiniteGraph.sweeps_order t.graph start) (shadows_start t.neighbors start)
      (rooted_start t start), ← h.connected.length_order hstart, List.take_length]
  have hfirst : t.graph.firstVisits start t.size = t.graph.order start := by
    rw [FiniteGraph.firstVisits_eq_fresh]
    refine (congrArg (fresh _) hvisits).trans
      (fresh_eq_self (FiniteGraph.nodup_order t.graph start) ?_)
    exact fun _ _ => Bool.false_ne_true
  rw [reach_eq_card, hfirst, card_neighbors_order h.connected hstart]

/-- **The center** of a device that has qubits is the first one that reaches furthest. On a
connected device without cycles, like a path or a star, all qubits reach equally far, and the center
is the first qubit of all. -/
theorem center_exact (hne : t.qubits ≠ []) :
    (∃ center, t.center = .ok center ∧ IsFirstMax (t.reach t.size) t.qubits center) ∧
    (t.IsTree →
      (∀ q ∈ t.qubits, t.reach t.size q = if 2 ≤ t.size then t.size else 0) ∧
      t.center = .ok (t.qubits.head hne)) ∧
    ∀ n, (linear n).IsTree ∧ (star n).IsTree := by
  obtain ⟨center, hcenter, hmax⟩ := exists_center_isFirstMax hne
  refine ⟨⟨center, hcenter, hmax⟩, ?_, fun n => ⟨isTree_linear n, isTree_star n⟩⟩
  intro htree
  have hreach : ∀ q ∈ t.qubits, t.reach t.size q = if 2 ≤ t.size then t.size else 0 :=
    fun q hq => htree.reach_size hq
  refine ⟨hreach, ?_⟩
  have hhead : t.qubits.head? = some center := by
    apply hmax.head?_eq
    intro q hq
    rw [hreach q hq, hreach center hmax.mem]
  rw [List.head?_eq_some_head hne] at hhead
  rw [hcenter, Option.some.inj hhead]

/-- On a line of five the center is at the end, where it begins. -/
theorem center_exact_line :
    (linear 5).qubits ≠ [] ∧ (linear 5).IsTree ∧
      (∀ q ∈ (linear 5).qubits, (linear 5).reach 5 q = 5) ∧
      (linear 5).center = .ok ⟨0⟩ := by
  have hne : (linear 5).qubits ≠ [] := by decide
  have htree := isTree_linear 5
  exact ⟨hne, htree, (center_exact hne).2.1 htree⟩

end QubitRouting.Topology
