import QubitRouting.Circuit.Registers
import QubitRouting.Proofs.Steps

/-!
# Broadcasting

Which expansions fit together (`Expansion.Fit`), what each application is then made of
(`Expansion.Applies`), and which two are to blame where they do not fit (`Expansion.Clash`):
broadcasting answers exactly so. Every name that is taken from an expansion is there, also where
registers without elements take part.

The width can be found in one pass that has no mark of its own for "not known yet" and takes the
width one for it (`Expansion.onePass`). This is no mistake, since expansions of one name are passed
over and so the width never becomes one again.

For the operands of gates and measurements it follows that nothing else can go wrong than an index
past the end of its register, or two registers that clash (`Program.Refuses`).
-/

set_option autoImplicit false

namespace QubitRouting

/-! ## Names of elements -/

namespace Expansion

/-! ## What fits together -/

/-- The expansions make `w` applications: those that are not single names have `w` names, and if
there are no such ones, `w` is one. -/
structure Fit (es : List Expansion) (w : Nat) : Prop where
  sizes : ∀ e ∈ es, e.names.length ≠ 1 → e.names.length = w
  single : (∀ e ∈ es, e.names.length = 1) → w = 1

/-- The name that takes part in application `i`: the only one, or the one at that place. -/
inductive Takes (i : Nat) (e : Expansion) (name : String) : Prop where
  | only (h : e.names = [name])
  | nth (hmany : e.names.length ≠ 1) (h : e.names[i]? = some name)

/-- The applications: `w` of them, and in each one name of every expansion. -/
structure Applies (es : List Expansion) (w : Nat) (tuples : List (List String)) : Prop where
  count : tuples.length = w
  names : ∀ i tuple, tuples[i]? = some tuple → List.Forall₂ (Takes i) es tuple

/-- The first expansion that is not a single name, and the first one behind it that is neither a
single name nor as large. -/
inductive Clash : List Expansion → RegisterError → Prop where
  | intro {before mid after : List Expansion} {e f : Expansion}
      (hbefore : ∀ x ∈ before, x.names.length = 1) (he : e.names.length ≠ 1)
      (hmid : ∀ x ∈ mid, x.names.length = 1 ∨ x.names.length = e.names.length)
      (hf : f.names.length ≠ 1) (hne : f.names.length ≠ e.names.length) :
      Clash (before ++ e :: (mid ++ f :: after))
        (.sizeMismatch e.label e.names.length f.label f.names.length)

variable {es : List Expansion} {e : Expansion} {w i : Nat}

theorem filter_eq_nil_iff : es.filter (·.names.length ≠ 1) = [] ↔ ∀ e ∈ es, e.names.length = 1 := by
  simp

theorem width_eq_ok_iff : width es = .ok w ↔ Fit es w := by
  unfold width
  split
  · rename_i hnone
    have hall := filter_eq_nil_iff.mp hnone
    rw [Except.ok.injEq]
    constructor
    · rintro rfl
      exact ⟨fun e he hne => absurd (hall e he) hne, fun _ => rfl⟩
    · intro h
      exact (h.single hall).symm
  · rename_i e rest hfirst
    have hmem : ∀ x, x ∈ e :: rest ↔ x ∈ es ∧ x.names.length ≠ 1 := by
      intro x
      rw [← hfirst, List.mem_filter, decide_eq_true_eq]
    obtain ⟨he, hsize⟩ := (hmem e).mp List.mem_cons_self
    split
    · rename_i f hfind
      have hne := List.find?_some hfind
      obtain ⟨hf, hfsize⟩ := (hmem f).mp (List.mem_cons_of_mem e (List.mem_of_find?_eq_some hfind))
      rw [decide_eq_true_eq] at hne
      constructor
      · intro h
        cases h
      · intro h
        exact absurd ((h.sizes f hf hfsize).trans (h.sizes e he hsize).symm) hne
    · rename_i hfind
      rw [Except.ok.injEq]
      constructor
      · rintro rfl
        refine ⟨fun x hx hxsize => ?_, fun hall => absurd (hall e he) hsize⟩
        rcases List.mem_cons.mp ((hmem x).mpr ⟨hx, hxsize⟩) with rfl | hrest
        · rfl
        · simpa using List.find?_eq_none.mp hfind x hrest
      · intro h
        exact h.sizes e he hsize

theorem width_eq_error_iff {err : RegisterError} : width es = .error err ↔ Clash es err := by
  constructor
  · intro h
    unfold width at h
    split at h
    · cases h
    · rename_i e rest hfirst
      split at h
      · rename_i f hfind
        obtain rfl := Except.error.inj h
        -- the pieces of the filtered list are pieces of the whole list
        obtain ⟨before, behind, rfl, hbefore, he, rfl⟩ := List.filter_eq_cons_iff.mp hfirst
        obtain ⟨hne, large, small, hsplit, hlarge⟩ := List.find?_eq_some_iff_append.mp hfind
        obtain ⟨mid₁, more, rfl, rfl, hmore⟩ := List.filter_eq_append_iff.mp hsplit
        obtain ⟨mid₂, after, rfl, hmid₂, hf, rfl⟩ := List.filter_eq_cons_iff.mp hmore
        have hmid : ∀ x ∈ mid₁ ++ mid₂, x.names.length = 1 ∨ x.names.length = e.names.length := by
          intro x hx
          rcases List.mem_append.mp hx with hx | hx
          · refine Decidable.or_iff_not_imp_left.mpr fun hsize => ?_
            simpa using hlarge x (List.mem_filter.mpr ⟨hx, decide_eq_true hsize⟩)
          · exact .inl (by simpa using hmid₂ x hx)
        have hclash : Clash (before ++ e :: (mid₁ ++ mid₂ ++ f :: after)) _ :=
          .intro (by simpa using hbefore) (of_decide_eq_true he) hmid (of_decide_eq_true hf)
            (of_decide_eq_true hne)
        rwa [List.append_assoc] at hclash
      · cases h
  · intro h
    cases h with
    | @intro before mid after e f hbefore he hmid hf hne =>
      have hfilter : (before ++ e :: (mid ++ f :: after)).filter (·.names.length ≠ 1) =
          e :: (mid.filter (·.names.length ≠ 1) ++ f :: after.filter (·.names.length ≠ 1)) := by
        rw [List.filter_append, filter_eq_nil_iff.mpr hbefore, List.nil_append,
          List.filter_cons_of_pos (by simpa using he), List.filter_append,
          List.filter_cons_of_pos (by simpa using hf)]
      have hfind : (mid.filter (·.names.length ≠ 1) ++ f :: after.filter (·.names.length ≠ 1)).find?
          (·.names.length ≠ e.names.length) = some f := by
        have hnone :
            (mid.filter (·.names.length ≠ 1)).find? (·.names.length ≠ e.names.length) = none := by
          rw [List.find?_eq_none]
          intro x hx
          obtain ⟨hx, hsize⟩ := List.mem_filter.mp hx
          simpa using (hmid x hx).resolve_left (of_decide_eq_true hsize)
        rw [List.find?_append, hnone, Option.none_or, List.find?_cons_of_pos (by simpa using hne)]
      unfold width
      simp only [hfilter, hfind]

/-! ## The applications -/

theorem pick_eq_of_takes {name : String} (h : e.Takes i name) : e.pick i = name := by
  cases h with
  | only h => rw [pick, h]
  | nth hmany h =>
    unfold pick
    split
    · rename_i hnames
      exact absurd (congrArg List.length hnames) hmany
    · rw [List.getD_eq_getElem?_getD, h, Option.getD_some]

theorem Takes.mem {name : String} (h : e.Takes i name) : name ∈ e.names := by
  cases h with
  | only h => simp [h]
  | nth _ h => exact List.mem_of_getElem? h

/-- Where the expansions fit together, the name that takes part is there. -/
theorem Fit.takes_pick (h : Fit es w) (he : e ∈ es) (hi : i < w) : e.Takes i (e.pick i) := by
  by_cases hone : e.names.length = 1
  · obtain ⟨name, hname⟩ := List.length_eq_one_iff.mp hone
    rw [pick, hname]
    exact .only hname
  · have hlt : i < e.names.length := by rwa [h.sizes e he hone]
    have hname : e.Takes i (e.names[i]) := .nth hone (List.getElem?_eq_getElem hlt)
    rwa [pick_eq_of_takes hname]

theorem eq_map_pick_of_takes {tuple : List String} (h : List.Forall₂ (Takes i) es tuple) :
    tuple = es.map (·.pick i) := by
  induction h with
  | nil => rfl
  | cons h _ ih => rw [List.map_cons, pick_eq_of_takes h, ← ih]

theorem applies_iff (h : Fit es w) {tuples : List (List String)} :
    Applies es w tuples ↔ tuples = (List.range w).map fun i => es.map (·.pick i) := by
  constructor
  · intro ha
    apply List.ext_getElem
    · simp [ha.count]
    · intro i hi _
      rw [List.getElem_map, List.getElem_range]
      exact eq_map_pick_of_takes (ha.names i tuples[i] (List.getElem?_eq_getElem hi))
  · rintro rfl
    refine ⟨by simp, fun i tuple htuple => ?_⟩
    rw [List.getElem?_map, Option.map_eq_some_iff] at htuple
    obtain ⟨j, hj, rfl⟩ := htuple
    obtain ⟨hi, hij⟩ := List.getElem?_eq_some_iff.mp hj
    rw [List.length_range] at hi
    rw [List.getElem_range] at hij
    subst hij
    rw [List.forall₂_map_right_iff, List.forall₂_same]
    intro e he
    exact h.takes_pick he hi

theorem broadcast_eq_ok_iff {tuples : List (List String)} :
    broadcast es = .ok tuples ↔ ∃ w, Fit es w ∧ Applies es w tuples := by
  rw [broadcast, bind_eq_ok_iff]
  refine exists_congr fun w => ?_
  rw [width_eq_ok_iff]
  refine and_congr_right fun h => ?_
  rw [applies_iff h, eq_comm (a := tuples)]
  exact Iff.of_eq (Except.ok.injEq _ _)

/-- Expansions that fit together have applications. -/
theorem exists_broadcast_iff : (∃ tuples, broadcast es = .ok tuples) ↔ ∃ w, Fit es w := by
  simp only [broadcast_eq_ok_iff]
  constructor
  · rintro ⟨_, w, h, -⟩
    exact ⟨w, h⟩
  · rintro ⟨w, h⟩
    exact ⟨_, w, h, (applies_iff h).mpr rfl⟩

theorem broadcast_eq_error_iff {err : RegisterError} :
    broadcast es = .error err ↔ Clash es err := by
  rw [broadcast, bind_eq_error_iff, ← width_eq_error_iff, or_iff_left]
  rintro ⟨w, -, h⟩
  cases h

/-! ## One pass -/

/-- The width found so far, with the expansion that it comes from. As long as the width is one, none
has been found. -/
def onePass : Nat → String → List Expansion → Except RegisterError Nat
  | width, _, [] => .ok width
  | width, widest, e :: es =>
    if e.names.length = 1 then onePass width widest es
    else if width = 1 then onePass e.names.length e.label es
    else if e.names.length ≠ width then .error (.sizeMismatch widest width e.label e.names.length)
    else onePass width widest es

theorem onePass_known (hw : w ≠ 1) (widest : String) (es : List Expansion) :
    onePass w widest es =
      ((es.filter (·.names.length ≠ 1)).find? (·.names.length ≠ w)).elim (.ok w)
        fun f => .error (.sizeMismatch widest w f.label f.names.length) := by
  induction es with
  | nil => rfl
  | cons e es ih =>
    by_cases hone : e.names.length = 1
    · simp [onePass, hone, ih]
    · by_cases hsize : e.names.length = w
      · simp [onePass, hw, hsize, ih]
      · simp [onePass, hone, hw, hsize]

theorem onePass_eq_width (widest : String) (es : List Expansion) :
    onePass 1 widest es = width es := by
  induction es with
  | nil => rfl
  | cons e es ih =>
    by_cases hone : e.names.length = 1
    · simpa [onePass, hone, width] using ih
    · have hfirst : (e :: es).filter (·.names.length ≠ 1) = e :: es.filter (·.names.length ≠ 1) :=
        List.filter_cons_of_pos (by simpa using hone)
      rw [onePass, if_neg hone, if_pos rfl, onePass_known hone]
      unfold width
      simp only [hfirst]
      cases (es.filter (·.names.length ≠ 1)).find? (·.names.length ≠ e.names.length) with
      | none => rfl
      | some f => rfl

end Expansion

/-! ## Declarations -/

inductive RegisterKind where
  | quantum
  | classical
deriving DecidableEq, Repr

namespace RegisterKind

def declare : RegisterKind → RegisterDecl → Statement
  | quantum => .qreg
  | classical => .creg

/-- The declaration of a register of this kind that a statement makes. -/
def declared? : RegisterKind → Statement → Option RegisterDecl
  | quantum, .qreg d => some d
  | classical, .creg d => some d
  | _, _ => none

theorem declared?_eq_some_iff {k : RegisterKind} {st : Statement} {d : RegisterDecl} :
    k.declared? st = some d ↔ st = k.declare d := by
  cases k <;> cases st <;> simp [declared?, declare]

end RegisterKind

namespace Program

/-- The last declaration of this register gives it this size. -/
def LastDeclares (p : Program) (k : RegisterKind) (name : String) (size : Nat) : Prop :=
  ∃ before after, p.statements = before ++ k.declare ⟨name, size⟩ :: after ∧
    ∀ n, k.declare ⟨name, n⟩ ∉ after

/-- The index of an operand is not below the size of its register. -/
structure Exceeds (p : Program) (k : RegisterKind) (o : Operand) (i size : Nat) : Prop where
  index : o.index = some i
  declared : p.LastDeclares k o.register size
  le : size ≤ i

/-- The names that an operand stands for. -/
inductive StandsFor (p : Program) (k : RegisterKind) (o : Operand) : List String → Prop where
  | whole {size : Nat} (hindex : o.index = none) (hsize : p.LastDeclares k o.register size) :
      StandsFor p k o (RegisterDecl.elements ⟨o.register, size⟩)
  | element {i size : Nat} (hindex : o.index = some i) (hsize : p.LastDeclares k o.register size)
      (hlt : i < size) : StandsFor p k o [o.text]
  | undeclared (h : ∀ size, ¬p.LastDeclares k o.register size) : StandsFor p k o [o.text]

/-- Why operands cannot be broadcast: the first index that is too large or, if there is none,
expansions that clash. -/
inductive Refuses (p : Program) : List (RegisterKind × Operand) → RegisterError → Prop where
  | index {before after : List (RegisterKind × Operand)} {k : RegisterKind} {o : Operand}
      {i size : Nat}
      (hbefore : ∀ x ∈ before, ∀ i size, ¬p.Exceeds x.1 x.2 i size) (h : p.Exceeds k o i size) :
      Refuses p (before ++ (k, o) :: after) (.indexOutOfBounds o.register i size)
  | sizes {ops : List (RegisterKind × Operand)} {es : List Expansion} {err : RegisterError}
      (hes : List.Forall₂ (fun x e => e.label = x.2.text ∧ p.StandsFor x.1 x.2 e.names) ops es)
      (h : Expansion.Clash es err) : Refuses p ops err

end Program

namespace Registers

/-- The registers of one kind. -/
def ofKind (r : Registers) : RegisterKind → List RegisterDecl
  | .quantum => r.qregs
  | .classical => r.cregs

theorem ofKind_ofProgram (p : Program) (k : RegisterKind) :
    (ofProgram p).ofKind k = p.statements.filterMap k.declared? := by
  cases k with
  | quantum =>
    apply List.filterMap_congr
    intro st _
    cases st <;> rfl
  | classical =>
    apply List.filterMap_congr
    intro st _
    cases st <;> rfl

theorem sizeOf?_eq_some_iff {decls : List RegisterDecl} {name : String} {size : Nat} :
    sizeOf? decls name = some size ↔
      ∃ before after, decls = before ++ ⟨name, size⟩ :: after ∧ ∀ d ∈ after, d.name ≠ name := by
  rw [sizeOf?, Option.map_eq_some_iff]
  constructor
  · rintro ⟨⟨_, _⟩, hfind, rfl⟩
    obtain ⟨hname, after, before, hsplit, hafter⟩ := List.find?_eq_some_iff_append.mp hfind
    obtain rfl := of_decide_eq_true hname
    refine ⟨before.reverse, after.reverse, ?_, ?_⟩
    · simpa using congrArg List.reverse hsplit
    · intro d hd
      simpa using hafter d (List.mem_reverse.mp hd)
  · rintro ⟨before, after, rfl, hafter⟩
    refine ⟨⟨name, size⟩, List.find?_eq_some_iff_append.mpr ⟨decide_eq_true rfl, after.reverse,
      before.reverse, by simp, ?_⟩, rfl⟩
    intro d hd
    simpa using hafter d (List.mem_reverse.mp hd)

theorem sizeOf?_ofProgram {p : Program} {k : RegisterKind} {name : String} {size : Nat} :
    sizeOf? ((ofProgram p).ofKind k) name = some size ↔ p.LastDeclares k name size := by
  have hnone : ∀ sts : List Statement, (∀ d ∈ sts.filterMap k.declared?, d.name ≠ name) ↔
      ∀ n, k.declare ⟨name, n⟩ ∉ sts := by
    intro sts
    simp only [List.mem_filterMap, RegisterKind.declared?_eq_some_iff]
    constructor
    · intro h n hn
      exact h ⟨name, n⟩ ⟨_, hn, rfl⟩ rfl
    · rintro h ⟨_, n⟩ ⟨_, hmem, rfl⟩ rfl
      exact h n hmem
  rw [ofKind_ofProgram, sizeOf?_eq_some_iff]
  constructor
  · rintro ⟨before, after, hsplit, hafter⟩
    obtain ⟨sts₁, more, hsts, -, hmore⟩ := List.filterMap_eq_append_iff.mp hsplit
    obtain ⟨sts₂, st, sts₃, rfl, -, hst, rfl⟩ := List.filterMap_eq_cons_iff.mp hmore
    refine ⟨sts₁ ++ sts₂, sts₃, ?_, (hnone sts₃).mp hafter⟩
    rw [hsts, ← RegisterKind.declared?_eq_some_iff.mp hst, List.append_assoc]
  · rintro ⟨before, after, hsts, hafter⟩
    refine ⟨before.filterMap k.declared?, after.filterMap k.declared?, ?_, (hnone after).mpr hafter⟩
    rw [hsts, List.filterMap_append,
      List.filterMap_cons_some (RegisterKind.declared?_eq_some_iff.mpr rfl)]

theorem expand_eq_ok_iff {p : Program} {k : RegisterKind} {o : Operand} {names : List String} :
    expand ((ofProgram p).ofKind k) o = .ok names ↔ p.StandsFor k o names := by
  constructor
  · intro h
    unfold expand at h
    split at h
    · rename_i size i hsize hindex
      split at h
      · cases h
      · rename_i hlt
        obtain rfl := Except.ok.inj h
        exact .element hindex (sizeOf?_ofProgram.mp hsize) (Nat.lt_of_not_le hlt)
    · rename_i size hsize hindex
      obtain rfl := Except.ok.inj h
      exact .whole hindex (sizeOf?_ofProgram.mp hsize)
    · rename_i hnone
      obtain rfl := Except.ok.inj h
      refine .undeclared fun size hsize => ?_
      rw [← sizeOf?_ofProgram, hnone] at hsize
      cases hsize
  · intro h
    cases h with
    | whole hindex hsize => simp only [expand, sizeOf?_ofProgram.mpr hsize, hindex]
    | element hindex hsize hlt =>
      simp only [expand, sizeOf?_ofProgram.mpr hsize, hindex, if_neg (Nat.not_le.mpr hlt)]
    | undeclared h =>
      have hnone : sizeOf? ((ofProgram p).ofKind k) o.register = none :=
        Option.eq_none_iff_forall_ne_some.mpr fun size hsize => h size (sizeOf?_ofProgram.mp hsize)
      simp only [expand, hnone]

theorem expand_eq_error_iff {p : Program} {k : RegisterKind} {o : Operand} {err : RegisterError} :
    expand ((ofProgram p).ofKind k) o = .error err ↔
      ∃ i size, p.Exceeds k o i size ∧ err = .indexOutOfBounds o.register i size := by
  constructor
  · intro h
    unfold expand at h
    split at h
    · rename_i size i hsize hindex
      split at h
      · rename_i hle
        exact ⟨i, size, ⟨hindex, sizeOf?_ofProgram.mp hsize, hle⟩, (Except.error.inj h).symm⟩
      · cases h
    · cases h
    · cases h
  · rintro ⟨i, size, ⟨hindex, hdeclared, hle⟩, rfl⟩
    simp only [expand, sizeOf?_ofProgram.mpr hdeclared, hindex, if_pos hle]

/-! ## Operands -/

/-- What an operand stands for, with the operand as it is written. -/
def expansion (r : Registers) (x : RegisterKind × Operand) : Except RegisterError Expansion := do
  return ⟨x.2.text, ← expand (r.ofKind x.1) x.2⟩

theorem expansion_eq_ok_iff {p : Program} {x : RegisterKind × Operand} {e : Expansion} :
    (ofProgram p).expansion x = .ok e ↔ e.label = x.2.text ∧ p.StandsFor x.1 x.2 e.names := by
  rw [expansion, bind_eq_ok_iff, ← expand_eq_ok_iff]
  constructor
  · rintro ⟨names, hnames, h⟩
    obtain rfl := Except.ok.inj h
    exact ⟨rfl, hnames⟩
  · rintro ⟨hlabel, hnames⟩
    exact ⟨e.names, hnames, congrArg Except.ok (by rw [← hlabel])⟩

theorem expansion_eq_error_iff {p : Program} {x : RegisterKind × Operand} {err : RegisterError} :
    (ofProgram p).expansion x = .error err ↔
      ∃ i size, p.Exceeds x.1 x.2 i size ∧ err = .indexOutOfBounds x.2.register i size := by
  rw [expansion, bind_eq_error_iff, ← expand_eq_error_iff, or_iff_left]
  rintro ⟨names, -, h⟩
  cases h

/-- An operand can be expanded unless its index is too large. -/
theorem exists_expansion_iff {p : Program} {x : RegisterKind × Operand} :
    (∃ e, (ofProgram p).expansion x = .ok e) ↔ ∀ i size, ¬p.Exceeds x.1 x.2 i size := by
  cases h : (ofProgram p).expansion x with
  | ok e =>
    refine iff_of_true ⟨e, rfl⟩ fun i size hexceeds => ?_
    rw [expansion_eq_error_iff.mpr ⟨i, size, hexceeds, rfl⟩] at h
    cases h
  | error err =>
    obtain ⟨i, size, hexceeds, -⟩ := expansion_eq_error_iff.mp h
    refine iff_of_false ?_ fun hnone => hnone i size hexceeds
    rintro ⟨e, he⟩
    cases he

/-- **What can go wrong** when operands are expanded and broadcast. -/
theorem refuses_iff {p : Program} {ops : List (RegisterKind × Operand)} {err : RegisterError} :
    (ops.mapM (ofProgram p).expansion >>= Expansion.broadcast) = .error err ↔
      p.Refuses ops err := by
  rw [bind_eq_error_iff, mapM_eq_error_iff]
  simp only [exists_expansion_iff, mapM_eq_ok_iff, Expansion.broadcast_eq_error_iff]
  simp only [expansion_eq_ok_iff]
  constructor
  · rintro (⟨before, x, after, rfl, hbefore, hx⟩ | ⟨es, hes, hclash⟩)
    · obtain ⟨i, size, hexceeds, rfl⟩ := expansion_eq_error_iff.mp hx
      exact .index hbefore hexceeds
    · exact .sizes hes hclash
  · intro h
    cases h with
    | index hbefore h =>
      exact .inl ⟨_, _, _, rfl, hbefore, expansion_eq_error_iff.mpr ⟨_, _, h, rfl⟩⟩
    | sizes hes h => exact .inr ⟨_, hes, h⟩

theorem applications_eq (r : Registers) (ops : List Operand) :
    r.applications ops =
      ((ops.map fun o => (RegisterKind.quantum, o)).mapM r.expansion >>= Expansion.broadcast) := by
  rw [List.mapM_map]
  rfl

/-- A measurement is the broadcast of its two operands, in pairs. -/
theorem measurements_eq (r : Registers) (qubit bit : Operand) :
    r.measurements qubit bit =
      ([(RegisterKind.quantum, qubit), (RegisterKind.classical, bit)].mapM r.expansion >>=
        Expansion.broadcast).map (·.map fun names => (names.getD 0 "", names.getD 1 "")) := by
  have hpair : ∀ x y, [x, y].mapM r.expansion = (do return [← r.expansion x, ← r.expansion y]) := by
    intro x y
    simp
  have hq : expand (r.ofKind .quantum) qubit = r.expandQubits qubit := rfl
  have hb : expand (r.ofKind .classical) bit = r.expandBits bit := rfl
  rw [hpair, expansion, expansion, hq, hb, measurements]
  cases r.expandQubits qubit with
  | error err => rfl
  | ok qubits =>
    cases r.expandBits bit with
    | error err => rfl
    | ok bits =>
      show (Expansion.width [⟨qubit.text, qubits⟩, ⟨bit.text, bits⟩] >>= _) =
        (Expansion.broadcast [⟨qubit.text, qubits⟩, ⟨bit.text, bits⟩]).map _
      rw [Expansion.broadcast]
      cases Expansion.width [⟨qubit.text, qubits⟩, ⟨bit.text, bits⟩] with
      | error err => rfl
      | ok n =>
        refine congrArg Except.ok ?_
        simp

/-- **Broadcasting**, for all expansions: it succeeds exactly if they fit together, then makes the
applications that they say, and otherwise names the two that clash; and the width may be found in
one pass. For the operands of gates and of measurements, whatever the program declares, it follows
that only the first index that is too large, or a clash of what the operands stand for, makes it
fail. -/
theorem broadcast_exact :
    (∀ es : List Expansion,
      ((∃ tuples, Expansion.broadcast es = .ok tuples) ↔ ∃ w, Expansion.Fit es w) ∧
      (∀ tuples, Expansion.broadcast es = .ok tuples ↔
        ∃ w, Expansion.Fit es w ∧ Expansion.Applies es w tuples) ∧
      (∀ err, Expansion.broadcast es = .error err ↔ Expansion.Clash es err) ∧
      Expansion.onePass 1 "" es = Expansion.width es) ∧
    ∀ (p : Program) (err : RegisterError),
      (∀ ops : List Operand, (ofProgram p).applications ops = .error err ↔
        p.Refuses (ops.map fun o => (.quantum, o)) err) ∧
      ∀ qubit bit : Operand, (ofProgram p).measurements qubit bit = .error err ↔
        p.Refuses [(.quantum, qubit), (.classical, bit)] err := by
  refine ⟨fun es => ⟨Expansion.exists_broadcast_iff, fun _ => Expansion.broadcast_eq_ok_iff,
    fun _ => Expansion.broadcast_eq_error_iff, Expansion.onePass_eq_width "" es⟩, fun p err =>
      ⟨?_, ?_⟩⟩
  · intro ops
    rw [applications_eq, refuses_iff]
  · intro qubit bit
    rw [measurements_eq, map_eq_error_iff, refuses_iff]

end Registers

end QubitRouting
