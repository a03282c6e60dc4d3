import Mathlib.Data.List.Nodup
import QubitRouting.Config.Codec
import QubitRouting.Proofs.Config.Device

/-!
# Settings survive being written and read

Settings are read from documents just as they were written, in whatever order the fields of the
records stand (`Document.Same`), and what is left out of a record has its usual value. Reading goes
by the values of fields only, so all of this rests on one lemma for a field that was kept or left
out (`Document.orElse?_keeping`).
-/

set_option autoImplicit false

namespace QubitRouting

namespace Document

/-! ## Records without an order -/

/-- Two documents say the same if the fields of their records have the same values. No setting has
records in a list, so that lists are the same only if they are equal. -/
inductive Same : Document → Document → Prop
  | refl (d : Document) : Same d d
  | record {fs fs' : List (String × Document)}
      (h : ∀ name, Option.Rel Same (field? name fs) (field? name fs')) :
      Same (.record fs) (.record fs')

/-- The values of all fields are the same. -/
def SameFields (fs fs' : List (String × Document)) : Prop :=
  ∀ name, Option.Rel Same (field? name fs) (field? name fs')

theorem Same.exists_fields {fs : List (String × Document)} {d : Document}
    (h : Same (.record fs) d) :
    ∃ fs', d = .record fs' ∧ SameFields fs fs' := by
  cases h with
  | refl =>
    refine ⟨fs, rfl, fun name => ?_⟩
    cases field? name fs with
    | none => exact .none
    | some v => exact .some (.refl v)
  | record h => exact ⟨_, rfl, h⟩

theorem field?_cons (name : String) (f : String × Document) (fs : List (String × Document)) :
    field? name (f :: fs) = if f.1 = name then some f.2 else field? name fs := by
  rw [field?, List.find?_cons]
  by_cases h : f.1 = name
  · simp [h]
  · simp [h, field?]

theorem field?_isSome_iff {name : String} {fs : List (String × Document)} :
    (field? name fs).isSome ↔ name ∈ fs.map (·.1) := by
  simp [field?]

theorem SameFields.mem_names_iff {fs fs' : List (String × Document)} (h : SameFields fs fs')
    {name : String} :
    name ∈ fs.map (·.1) ↔ name ∈ fs'.map (·.1) := by
  rw [← field?_isSome_iff, ← field?_isSome_iff]
  have hrel := h name
  generalize field? name fs = o at hrel ⊢
  generalize field? name fs' = o' at hrel ⊢
  cases hrel with
  | none => exact .rfl
  | some => exact .rfl

theorem field?_perm {fs fs' : List (String × Document)} (h : fs.Perm fs')
    (hnames : (fs.map (·.1)).Nodup) (name : String) : field? name fs = field? name fs' := by
  induction h with
  | nil => rfl
  | cons f _ ih => rw [field?_cons, field?_cons, ih (List.nodup_cons.mp hnames).2]
  | swap f g fs =>
    obtain ⟨hfg, -⟩ := List.nodup_cons.mp hnames
    have hne : g.1 ≠ f.1 := fun heq => hfg (List.mem_map.mpr ⟨f, List.mem_cons_self, heq.symm⟩)
    rw [field?_cons, field?_cons, field?_cons, field?_cons]
    by_cases hg : g.1 = name
    · rw [if_pos hg, if_neg (hg ▸ hne.symm), if_pos hg]
    · rw [if_neg hg, if_neg hg]
  | trans hfs _ ih ih' => exact (ih hnames).trans (ih' ((hfs.map _).nodup_iff.mp hnames))

/-- Fields with distinct names may be rearranged. -/
theorem Same.of_perm {fs fs' : List (String × Document)} (h : fs.Perm fs')
    (hnames : (fs.map (·.1)).Nodup) : Same (.record fs) (.record fs') := by
  refine .record fun name => ?_
  rw [← field?_perm h hnames]
  cases field? name fs with
  | none => exact .none
  | some v => exact .some (.refl v)

/-! ## Leaving fields out -/

/-- The document without some of its fields. -/
def keeping (keep : String → Bool) : Document → Document
  | .record fs => .record (fs.filter (keep ·.1))
  | d => d

theorem field?_filter (keep : String → Bool) (name : String) (fs : List (String × Document)) :
    field? name (fs.filter (keep ·.1)) = if keep name then field? name fs else none := by
  induction fs with
  | nil => simp [field?]
  | cons f fs ih =>
    rw [List.filter_cons, field?_cons]
    by_cases hname : f.1 = name
    · subst hname
      cases hkeep : keep f.1 with
      | false => rw [if_neg Bool.false_ne_true, ih, hkeep, if_neg Bool.false_ne_true,
        if_neg Bool.false_ne_true]
      | true => rw [if_pos rfl, field?_cons, if_pos rfl, if_pos rfl, if_pos rfl]
    · rw [if_neg hname, ← ih]
      split
      · rw [field?_cons, if_neg hname]
      · rfl

theorem keeping_all (d : Document) : keeping (fun _ => true) d = d := by
  cases d with
  | record fs => exact congrArg Document.record (List.filter_true fs)
  | null | bool | integer | real | text | list => rfl

/-! ## Reading documents that say the same -/

/-- Whatever says the same as `d` is read as `a`. -/
def ReadsAs {α : Type} (read : Document → Option α) (d : Document) (a : α) : Prop :=
  ∀ d', Same d d' → read d' = some a

section Fields

variable {α : Type} {read : Document → Option α} {fs fs' : List (String × Document)} {name : String}
  {d : Document} {a : α}

theorem required?_same (h : SameFields fs fs') (hd : field? name fs = some d)
    (hread : ReadsAs read d a) :
    required? read (field? name fs') = some a := by
  have hrel := h name
  rw [hd] at hrel
  generalize field? name fs' = o at hrel ⊢
  cases hrel with
  | some hsame => exact hread _ hsame

/-- A field that may be missing has its value if it was kept, and the usual value if it was left
out. -/
theorem orElse?_keeping (keep : String → Bool) (usual : α)
    (h : SameFields (fs.filter (keep ·.1)) fs')
    (hd : field? name fs = some d) (hread : ReadsAs read d a) :
    orElse? usual read (field? name fs') = some (if keep name then a else usual) := by
  have hrel := h name
  rw [field?_filter, hd] at hrel
  generalize field? name fs' = o at hrel ⊢
  cases hkeep : keep name with
  | false =>
    rw [hkeep] at hrel
    cases hrel with
    | none => rfl
  | true =>
    rw [hkeep] at hrel
    cases hrel with
    | some hsame => exact hread _ hsame

theorem orElse?_same (usual : α) (h : SameFields fs fs') (hd : field? name fs = some d)
    (hread : ReadsAs read d a) : orElse? usual read (field? name fs') = some a := by
  rw [← List.filter_true fs] at h
  exact orElse?_keeping (fun _ => true) usual h hd hread

end Fields

theorem readsAs_natBelow {n limit : Nat} (h : n < limit) :
    ReadsAs (natBelow? limit) (.nat n) n := by
  rintro _ ⟨⟩
  rw [nat, natBelow?, if_pos ⟨Int.natCast_nonneg n, Int.ofNat_lt.mpr h⟩, Int.toNat_natCast]

theorem readsAs_nat32 {n : Nat} (h : n < Nat.pow 2 32) : ReadsAs nat32? (.nat n) n :=
  readsAs_natBelow h

theorem readsAs_bool (b : Bool) : ReadsAs bool? (.bool b) b := by
  rintro _ ⟨⟩
  rfl

/-- The items are read as the values that they were written from. -/
theorem mapM_map_eq_some {α β γ : Type} {write : α → β} {read : β → Option γ} {f : α → γ}
    {as : List α}
    (h : ∀ a ∈ as, read (write a) = some (f a)) : (as.map write).mapM read = some (as.map f) := by
  induction as with
  | nil => rfl
  | cons a as ih =>
    rw [List.map_cons, List.mapM_cons, h a List.mem_cons_self,
      ih fun b hb => h b (List.mem_cons_of_mem _ hb)]
    rfl

theorem list?_nats {ns : List Nat} (h : ∀ n ∈ ns, n < Nat.pow 2 32) :
    list? nat32? (.nats ns) = some ns := by
  have hitems := mapM_map_eq_some (f := id) fun n hn => readsAs_nat32 (h n hn) _ (.refl _)
  rwa [List.map_id] at hitems

theorem list?_pairs {edges : List (Nat × Nat)}
    (h : ∀ e ∈ edges, e.1 < Nat.pow 2 32 ∧ e.2 < Nat.pow 2 32) :
    list? pair32? (.list (edges.map fun e => .nats [e.1, e.2])) = some edges := by
  have hpair (e : Nat × Nat) (he : e ∈ edges) : pair32? (.nats [e.1, e.2]) = some e := by
    rw [nats, List.map_cons, List.map_cons, List.map_nil, pair32?,
      readsAs_nat32 (h e he).1 _ (.refl _), readsAs_nat32 (h e he).2 _ (.refl _)]
    rfl
  have hitems := mapM_map_eq_some (f := id) hpair
  rwa [List.map_id] at hitems

end Document

open Document

/-! ## Strategies, placement options and costs -/

theorem MoverStrategy.readsAs_encode (embedded : Bool) (s : MoverStrategy) :
    ReadsAs (decode? embedded) s.encode s := by
  rintro _ ⟨⟩
  cases s <;> rfl

theorem MeetingStrategy.readsAs_encode (embedded : Bool) (s : MeetingStrategy) :
    ReadsAs (decode? embedded) s.encode s := by
  rintro _ ⟨⟩
  cases s <;> rfl

theorem PlacementOptions.readsAs_encode (o : PlacementOptions) : ReadsAs decode? o.encode o := by
  intro d h
  obtain ⟨fs, rfl, hfs⟩ := h.exists_fields
  have hread : decode? (.record fs) =
      (orElse? true bool? (field? "allow_isolated" fs)).map fun b => { allowIsolated := b } := by
    show (orElse? true bool? (field? "allow_isolated" fs) >>= _) = _
    cases orElse? true bool? (field? "allow_isolated" fs) <;> rfl
  rw [hread, orElse?_same true hfs rfl (readsAs_bool _)]
  rfl

namespace CostModel

/-- The costs that are written. -/
def numbers (m : CostModel) : List Nat := [m.rz, m.x, m.sx, m.singleQubit, m.twoQubit, m.swap]

/-- Some of the costs, the others being the usual ones. -/
def keeping (keep : String → Bool) (m : CostModel) : CostModel :=
  let usual : CostModel := {}
  { rz := if keep "rz" then m.rz else usual.rz
    x := if keep "x" then m.x else usual.x
    sx := if keep "sx" then m.sx else usual.sx
    singleQubit := if keep "single_qubit" then m.singleQubit else usual.singleQubit
    twoQubit := if keep "two_qubit" then m.twoQubit else usual.twoQubit
    swap := if keep "swap" then m.swap else usual.swap }

theorem readsAs_keeping {m : CostModel} (hm : ∀ n ∈ m.numbers, n < Nat.pow 2 64)
    (keep : String → Bool) :
    ReadsAs decode? (m.encode.keeping keep) (m.keeping keep) := by
  intro d h
  obtain ⟨fs, rfl, hfs⟩ := h.exists_fields
  have hnat {n : Nat} (hn : n ∈ m.numbers) : ReadsAs nat64? (.nat n) n := readsAs_natBelow (hm n hn)
  simp only [numbers, List.mem_cons, List.not_mem_nil, or_false] at hnat
  simp only [decode?, fields?, List.map_cons, List.map_nil, Option.bind_eq_bind, Option.bind_some]
  rw [orElse?_keeping keep _ hfs rfl (hnat (n := m.rz) (by simp)),
    orElse?_keeping keep _ hfs rfl (hnat (n := m.x) (by simp)),
    orElse?_keeping keep _ hfs rfl (hnat (n := m.sx) (by simp)),
    orElse?_keeping keep _ hfs rfl (hnat (n := m.singleQubit) (by simp)),
    orElse?_keeping keep _ hfs rfl (hnat (n := m.twoQubit) (by simp)),
    orElse?_keeping keep _ hfs rfl (hnat (n := m.swap) (by simp))]
  rfl

end CostModel

/-! ## Devices -/

namespace DeviceSpec

theorem decode?_record {embedded : Bool} {kind : String} {fs fs' : List (String × Document)}
    (h : SameFields (("kind", .text kind) :: fs) fs') :
    decode? embedded (.record fs') = decodeKind? kind (.record fs') := by
  have hrel := h "kind"
  rw [field?_cons, if_pos rfl] at hrel
  rw [decode?]
  generalize field? "kind" fs' = o at hrel ⊢
  cases hrel with
  | some hsame =>
    cases hsame with
    | refl => rfl

/-- The kinds that have a size only. -/
theorem readsAs_sized {kind : String} {make : Nat → DeviceSpec} {n : Nat} (hn : n < Nat.pow 2 32)
    (hmake : ∀ fs, decodeKind? kind (.record fs) = (required? nat32? (field? "qubits" fs)).map make)
    (embedded : Bool) :
    ReadsAs (decode? embedded) (.record [("kind", .text kind), ("qubits", .nat n)]) (make n) := by
  intro d h
  obtain ⟨fs, rfl, hfs⟩ := h.exists_fields
  rw [decode?_record hfs, hmake, required?_same hfs rfl (readsAs_nat32 hn)]
  rfl

theorem decodeKind?_sized {fs : List (String × Document)} :
    decodeKind? "linear" (.record fs) = (required? nat32? (field? "qubits" fs)).map linear ∧
      decodeKind? "ring" (.record fs) = (required? nat32? (field? "qubits" fs)).map ring ∧
      decodeKind? "star" (.record fs) = (required? nat32? (field? "qubits" fs)).map star ∧
      decodeKind? "full" (.record fs) = (required? nat32? (field? "qubits" fs)).map full := by
  simp only [decodeKind?, fields?, List.map_cons, List.map_nil, Option.bind_eq_bind,
    Option.bind_some]
  cases required? nat32? (field? "qubits" fs) <;> exact ⟨rfl, rfl, rfl, rfl⟩

theorem exists_encode_eq (spec : DeviceSpec) :
    ∃ kind fs, spec.encode = .record (("kind", .text kind) :: fs) := by
  cases spec <;> exact ⟨_, _, rfl⟩

/-- A list of qubits may be missing, which is written as nothing. -/
theorem readsAs_qubits {qubits : Option (List Nat)} (h : ∀ n ∈ qubits.getD [], n < Nat.pow 2 32) :
    ReadsAs (nullable? (list? nat32?)) ((qubits.map .nats).getD .null) qubits := by
  cases qubits with
  | none =>
    rintro _ ⟨⟩
    rfl
  | some ns =>
    rintro _ ⟨⟩
    exact congrArg (Option.map some) (list?_nats h)

/-- What is written for a device is read as that device. -/
theorem readsAs_encode {spec : DeviceSpec} (h : ∀ n ∈ spec.numbers, n < Nat.pow 2 32)
    (embedded : Bool) :
    ReadsAs (decode? embedded) spec.encode spec := by
  cases spec with
  | heavyHex65 =>
    intro d hd
    obtain ⟨fs, rfl, hfs⟩ := hd.exists_fields
    rw [decode?_record hfs]
    rfl
  | linear n => exact readsAs_sized (h n List.mem_cons_self) (fun _ => decodeKind?_sized.1) embedded
  | ring n => exact readsAs_sized (h n List.mem_cons_self) (fun _ => decodeKind?_sized.2.1) embedded
  | star n =>
    exact readsAs_sized (h n List.mem_cons_self) (fun _ => decodeKind?_sized.2.2.1) embedded
  | full n =>
    exact readsAs_sized (h n List.mem_cons_self) (fun _ => decodeKind?_sized.2.2.2) embedded
  | grid rows cols =>
    intro d hd
    obtain ⟨fs, rfl, hfs⟩ := hd.exists_fields
    have hrows : required? nat32? (field? "rows" fs) = some rows :=
      required?_same hfs rfl (readsAs_nat32 (h rows (by simp [numbers])))
    have hcols : required? nat32? (field? "cols" fs) = some cols :=
      required?_same hfs rfl (readsAs_nat32 (h cols (by simp [numbers])))
    rw [decode?_record hfs]
    simp [decodeKind?, fields?, hrows, hcols]
  | custom qubits edges =>
    intro d hd
    obtain ⟨fs, rfl, hfs⟩ := hd.exists_fields
    have hqubits : orElse? none (nullable? (list? nat32?)) (field? "qubits" fs) = some qubits :=
      orElse?_same none hfs rfl (readsAs_qubits fun n hn => h n (List.mem_append_left _ hn))
    have hedges : required? (list? pair32?) (field? "edges" fs) = some edges := by
      refine required?_same hfs rfl ?_
      rintro _ ⟨⟩
      refine list?_pairs fun e he => ?_
      have hmem (n : Nat) (hn : n ∈ [e.1, e.2]) : n < Nat.pow 2 32 :=
        h n (List.mem_append_right _ (List.mem_flatMap.mpr ⟨e, he, hn⟩))
      exact ⟨hmem e.1 (by simp), hmem e.2 (by simp)⟩
    rw [decode?_record hfs]
    simp [decodeKind?, fields?, hqubits, hedges]

end DeviceSpec

/-! ## Configurations -/

/-- Some of the settings, the others being the usual ones. -/
def Setup.keeping (keep : String → Bool) (s : Setup) : Setup :=
  let usual : Setup := {}
  { device := if keep "topology" then s.device else usual.device
    mapper :=
      { placement := if keep "placement" then s.mapper.placement else usual.mapper.placement
        router :=
          { mover := if keep "mover" then s.mapper.router.mover else usual.mapper.router.mover
            meeting :=
              if keep "meeting" then s.mapper.router.meeting else usual.mapper.router.meeting } } }

namespace Configuration

/-- The settings that are kept, and of the costs, if they are kept, some again. -/
def keeping (keep keepCost : String → Bool) (c : Configuration) : Configuration :=
  { setup := c.setup.keeping keep
    costs := if keep "costs" then c.costs.keeping keepCost else {} }

section Written

variable {c : Configuration} (hdevice : ∀ n ∈ c.setup.device.numbers, n < Nat.pow 2 32)
  (hcosts : ∀ n ∈ c.costs.numbers, n < Nat.pow 2 64)

include hdevice hcosts in
theorem decode_keeping (keep keepCost : String → Bool) {d : Document}
    (h : Same (.keeping keep
      (.record (c.setup.fields ++ [("costs", c.costs.encode.keeping keepCost)]))) d) :
    decode d = .ok (c.keeping keep keepCost) := by
  obtain ⟨fs, rfl, hfs⟩ := h.exists_fields
  have hnames : (fs.map (·.1)).filter (· ∉ fieldNames) = [] := by
    rw [List.filter_eq_nil_iff]
    intro name hname
    obtain ⟨f, hf, rfl⟩ := List.mem_map.mp (hfs.mem_names_iff.mpr hname)
    have hall : f.1 ∈ fieldNames := List.mem_map_of_mem (List.mem_of_mem_filter hf)
    simp [hall]
  have hkind : ¬ (field? "kind" fs).isSome := by
    intro hsome
    rw [field?_isSome_iff] at hsome
    have : "kind" ∈ (fs.map (·.1)).filter (· ∉ fieldNames) := List.mem_filter.mpr ⟨hsome, by decide⟩
    rw [hnames] at this
    exact List.not_mem_nil this
  have hsetup : Setup.decodeFields? true (Setup.fieldNames.map (field? · fs)) =
      some (c.setup.keeping keep) := by
    simp only [Setup.fieldNames, List.map_cons, List.map_nil, Setup.decodeFields?,
      Option.bind_eq_bind]
    rw [orElse?_keeping keep _ hfs rfl (DeviceSpec.readsAs_encode hdevice true),
      orElse?_keeping keep _ hfs rfl c.setup.mapper.placement.readsAs_encode,
      orElse?_keeping keep _ hfs rfl (c.setup.mapper.router.mover.readsAs_encode true),
      orElse?_keeping keep _ hfs rfl (c.setup.mapper.router.meeting.readsAs_encode true)]
    rfl
  rw [decode, if_neg hkind, hnames, smallest?, hsetup,
    orElse?_keeping keep _ hfs rfl (CostModel.readsAs_keeping hcosts keepCost)]
  rfl

include hdevice in
theorem decode_device {d : Document} (h : Same c.setup.device.encode d) :
    decode d = .ok { setup := { device := c.setup.device } } := by
  have hread := DeviceSpec.readsAs_encode hdevice false d h
  obtain ⟨kind, rest, henc⟩ := c.setup.device.exists_encode_eq
  rw [henc] at h
  obtain ⟨fs, rfl, hfs⟩ := h.exists_fields
  have hkind : (field? "kind" fs).isSome := by
    rw [field?_isSome_iff, ← hfs.mem_names_iff]
    exact List.mem_cons_self
  rw [decode, if_pos hkind, hread]

end Written

/-- **Reading undoes writing**: whatever says the same as the record of all settings and costs is
read as these, and whatever says the same as a device on its own as that device with the usual
settings. Where any of the fields are left out of the record, or of the costs in it, just these have
their usual values. -/
theorem decode_undoes_encode (c : Configuration)
    (hdevice : ∀ n ∈ c.setup.device.numbers, n < Nat.pow 2 32)
    (hcosts : ∀ n ∈ c.costs.numbers, n < Nat.pow 2 64) :
    (∀ d, Same (.record (c.setup.fields ++ [("costs", c.costs.encode)])) d → decode d = .ok c) ∧
      (∀ d, Same c.setup.device.encode d →
      decode d = .ok { setup := { device := c.setup.device } }) ∧
      ∀ keep keepCost d,
        Same (.keeping keep (.record (c.setup.fields ++
        [("costs", c.costs.encode.keeping keepCost)]))) d →
          decode d = .ok (c.keeping keep keepCost) := by
  refine ⟨fun d h => ?_, fun d h => decode_device hdevice h,
    fun keep keepCost d h => decode_keeping hdevice hcosts keep keepCost h⟩
  rw [← Document.keeping_all c.costs.encode, ← Document.keeping_all (.record _)] at h
  exact decode_keeping hdevice hcosts _ _ h

/-- The largest numbers, costs before the device, and most settings left out. -/
theorem decode_undoes_encode_rearranged :
    let c : Configuration :=
      { setup :=
          { device := .custom (some [4294967295, 7]) [(7, 4294967295)]
            mapper :=
              { placement := { allowIsolated := false }, router := { mover := .lessConnected } } }
        costs := { rz := 18446744073709551615, swap := 0 } }
    (∀ n ∈ c.setup.device.numbers, n < Nat.pow 2 32) ∧ (∀ n ∈ c.costs.numbers, n < Nat.pow 2 64) ∧
      decode (.record [("costs", .record [("swap", .nat 0)]),
        ("topology", c.setup.device.encode)]) =
        .ok { setup := { device := c.setup.device }, costs := { swap := 0 } } := by
  intro c
  have hdevice : ∀ n ∈ c.setup.device.numbers, n < Nat.pow 2 32 := by decide
  have hcosts : ∀ n ∈ c.costs.numbers, n < Nat.pow 2 64 := by decide
  refine ⟨hdevice, hcosts, ?_⟩
  obtain ⟨-, -, hkeep⟩ := decode_undoes_encode c hdevice hcosts
  exact hkeep (fun name => name = "costs" ∨ name = "topology") (· = "swap") _
    (.of_perm (.swap _ _ _) (by decide))

end Configuration

end QubitRouting
