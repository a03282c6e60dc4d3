import Mathlib.Data.List.Forall2

/-!
# Steps that may fail

The operations of a session and the two passes over a program are steps that may fail and that
change a state. `Gives x s a s'` says that step `x`, run in state `s`, succeeds with value `a` and
leaves state `s'`; one lemma for each way of building steps takes a run apart into the runs of its
parts, and puts it together again. No proof about a pass looks at the monad any more.
-/

set_option autoImplicit false

namespace QubitRouting

/-! ## Without a state -/

theorem bind_eq_ok_iff {ε α β : Type} {x : Except ε α} {f : α → Except ε β} {b : β} :
    x >>= f = .ok b ↔ ∃ a, x = .ok a ∧ f a = .ok b := by
  cases x with
  | error e => simp [bind, Except.bind]
  | ok a => simp [bind, Except.bind]

theorem bind_eq_error_iff {ε α β : Type} {x : Except ε α} {f : α → Except ε β} {e : ε} :
    x >>= f = .error e ↔ x = .error e ∨ ∃ a, x = .ok a ∧ f a = .error e := by
  cases x with
  | error e' => simp [bind, Except.bind]
  | ok a => simp [bind, Except.bind]

theorem map_eq_error_iff {ε α β : Type} {x : Except ε α} {f : α → β} {e : ε} :
    x.map f = .error e ↔ x = .error e := by
  cases x with
  | error e' => simp [Except.map]
  | ok a => simp [Except.map]

theorem toOption_eq_some_iff {ε α : Type} {x : Except ε α} {a : α} :
    x.toOption = some a ↔ x = .ok a := by
  cases x with
  | error e => simp [Except.toOption]
  | ok b => simp [Except.toOption]

theorem eq_of_toOption_fst {ε α σ : Type} {x : Except ε α × σ} {a : α} (h : x.1.toOption = some a) :
    x = (.ok a, x.2) :=
  Prod.ext (toOption_eq_some_iff.mp h) rfl

theorem throw_ne_ok {ε α : Type} {e : ε} {a : α} : (throw e : Except ε α) ≠ .ok a := by
  simp [throw, throwThe, MonadExceptOf.throw]

theorem mapM_eq_ok_iff {ε α β : Type} {f : α → Except ε β} {xs : List α} {ys : List β} :
    xs.mapM f = .ok ys ↔ List.Forall₂ (fun x y => f x = .ok y) xs ys := by
  induction xs generalizing ys with
  | nil =>
    rw [List.mapM_nil, List.forall₂_nil_left_iff]
    exact ⟨fun h => (Except.ok.inj h).symm, fun h => h ▸ rfl⟩
  | cons x xs ih =>
    rw [List.mapM_cons, bind_eq_ok_iff, List.forall₂_cons_left_iff]
    refine exists_congr fun y => ?_
    rw [bind_eq_ok_iff]
    constructor
    · rintro ⟨hy, ys', hys, h⟩
      exact ⟨ys', hy, ih.mp hys, (Except.ok.inj h).symm⟩
    · rintro ⟨ys', hy, hys, rfl⟩
      exact ⟨hy, ys', ih.mpr hys, rfl⟩

/-- The first element that fails is the reason for a failure of all. -/
theorem mapM_eq_error_iff {ε α β : Type} {f : α → Except ε β} {xs : List α} {e : ε} :
    xs.mapM f = .error e ↔
      ∃ before x after, xs = before ++ x :: after ∧ (∀ y ∈ before, ∃ b, f y = .ok b) ∧
      f x = .error e := by
  induction xs with
  | nil =>
    rw [List.mapM_nil]
    constructor
    · intro h
      cases h
    · rintro ⟨before, x, after, hsplit, -⟩
      simp at hsplit
  | cons x xs ih =>
    rw [List.mapM_cons, bind_eq_error_iff]
    constructor
    · rintro (hx | ⟨b, hb, h⟩)
      · exact ⟨[], x, xs, rfl, by simp, hx⟩
      · rcases bind_eq_error_iff.mp h with h | ⟨bs, -, h⟩
        · obtain ⟨before, y, after, rfl, hbefore, hy⟩ := ih.mp h
          exact ⟨x :: before, y, after, rfl, List.forall_mem_cons.mpr ⟨⟨b, hb⟩, hbefore⟩, hy⟩
        · cases h
    · rintro ⟨before, y, after, hsplit, hbefore, hy⟩
      cases before with
      | nil =>
        obtain ⟨rfl, -⟩ := List.cons.inj hsplit
        exact .inl hy
      | cons x' before =>
        obtain ⟨rfl, hmore⟩ := List.cons.inj hsplit
        obtain ⟨⟨b, hb⟩, hbefore⟩ := List.forall_mem_cons.mp hbefore
        exact .inr ⟨b, hb,
          bind_eq_error_iff.mpr (.inl (ih.mpr ⟨before, y, after, hmore, hbefore, hy⟩))⟩

/-- The lists of all elements, put together. -/
def gather {ε α β : Type} (f : α → Except ε (List β)) (xs : List α) : Except ε (List β) :=
  return (← xs.mapM f).flatten

theorem gather_cons {ε α β : Type} (f : α → Except ε (List β)) (x : α) (xs : List α) :
    gather f (x :: xs) = (do return (← f x) ++ (← gather f xs)) := by
  rw [gather, List.mapM_cons, gather]
  cases f x with
  | error e => rfl
  | ok ys =>
    cases xs.mapM f with
    | error e => rfl
    | ok yss => rfl

theorem gather_cons_eq_ok_iff {ε α β : Type} {f : α → Except ε (List β)} {x : α} {xs : List α}
    {ys : List β} :
    gather f (x :: xs) = .ok ys ↔
      ∃ ys₁ ys₂, f x = .ok ys₁ ∧ gather f xs = .ok ys₂ ∧ ys = ys₁ ++ ys₂ := by
  rw [gather_cons, bind_eq_ok_iff]
  refine exists_congr fun ys₁ => ?_
  rw [bind_eq_ok_iff]
  constructor
  · rintro ⟨h₁, ys₂, h₂, h⟩
    exact ⟨ys₂, h₁, h₂, (Except.ok.inj h).symm⟩
  · rintro ⟨ys₂, h₁, h₂, rfl⟩
    exact ⟨h₁, ys₂, h₂, rfl⟩

theorem gather_append_eq_ok_iff {ε α β : Type} {f : α → Except ε (List β)} {xs xs' : List α}
    {ys : List β} :
    gather f (xs ++ xs') = .ok ys ↔
      ∃ ys₁ ys₂, gather f xs = .ok ys₁ ∧ gather f xs' = .ok ys₂ ∧ ys = ys₁ ++ ys₂ := by
  induction xs generalizing ys with
  | nil =>
    constructor
    · intro h
      exact ⟨[], ys, rfl, h, rfl⟩
    · rintro ⟨ys₁, ys₂, h₁, h₂, rfl⟩
      obtain rfl := Except.ok.inj h₁
      exact h₂
  | cons x xs ih =>
    rw [List.cons_append, gather_cons_eq_ok_iff]
    simp only [ih, gather_cons_eq_ok_iff]
    constructor
    · rintro ⟨ys₀, _, h₀, ⟨ys₁, ys₂, h₁, h₂, rfl⟩, rfl⟩
      exact ⟨ys₀ ++ ys₁, ys₂, ⟨ys₀, ys₁, h₀, h₁, rfl⟩, h₂, (List.append_assoc _ _ _).symm⟩
    · rintro ⟨_, ys₂, ⟨ys₀, ys₁, h₀, h₁, rfl⟩, h₂, rfl⟩
      exact ⟨ys₀, ys₁ ++ ys₂, h₀, ⟨ys₁, ys₂, h₁, h₂, rfl⟩, List.append_assoc _ _ _⟩

/-! ### Two computations side by side -/

section Mirrors

variable {ε δ α β γ κ : Type}

/-- The second computation succeeds exactly if the first one does, with the image of its value. -/
def Mirrors (h : α → β) (x : Except ε α) (y : Except δ β) : Prop := y.toOption = x.toOption.map h

theorem Mirrors.ok (h : α → β) (a : α) :
    Mirrors h (.ok a : Except ε α) (.ok (h a) : Except δ β) := rfl

theorem Mirrors.error (h : α → β) (e : ε) (e' : δ) :
    Mirrors h (.error e : Except ε α) (.error e' : Except δ β) := rfl

theorem Mirrors.refl (x : Except ε α) : Mirrors id x x := by
  rw [Mirrors, Option.map_id, id]

theorem Mirrors.ok_iff {h : α → β} {x : Except ε α} {y : Except δ β} (hxy : Mirrors h x y) {b : β} :
    y = .ok b ↔ ∃ a, x = .ok a ∧ b = h a := by
  rw [← toOption_eq_some_iff, hxy, Option.map_eq_some_iff]
  refine exists_congr fun a => ?_
  rw [toOption_eq_some_iff, eq_comm (a := h a)]

theorem Mirrors.bind {h : α → β} {h' : γ → κ} {x : Except ε α} {y : Except δ β} {k : α → Except ε γ}
    {l : β → Except δ κ} (hxy : Mirrors h x y) (hkl : ∀ a, Mirrors h' (k a) (l (h a))) :
    Mirrors h' (x >>= k) (y >>= l) := by
  cases x with
  | error e =>
    cases y with
    | error e' => rfl
    | ok b => cases hxy
  | ok a =>
    cases y with
    | error e' => cases hxy
    | ok b =>
      obtain rfl : b = h a := Option.some.inj hxy
      exact hkl a

theorem Mirrors.map {h : α → β} {h' : γ → κ} {x : Except ε α} {y : Except δ β} {k : α → γ}
    {l : β → κ} (hxy : Mirrors h x y) (hkl : ∀ a, l (h a) = h' (k a)) :
    Mirrors h' (do return k (← x)) (do return l (← y)) := by
  refine hxy.bind fun a => ?_
  rw [hkl]
  exact .ok h' (k a)

theorem Mirrors.mapM {h : α → β} {h' : γ → κ} {f : α → Except ε γ} {g : β → Except δ κ}
    {xs : List α} (hfg : ∀ x ∈ xs, Mirrors h' (f x) (g (h x))) :
    Mirrors (List.map h') (xs.mapM f) ((xs.map h).mapM g) := by
  induction xs with
  | nil => rfl
  | cons x xs ih =>
    rw [List.map_cons, List.mapM_cons, List.mapM_cons]
    refine (hfg x List.mem_cons_self).bind fun y => ?_
    exact (ih fun x' hx' => hfg x' (List.mem_cons_of_mem x hx')).map fun ys => rfl

theorem Mirrors.gather {h : α → β} {h' : γ → κ} {f : α → Except ε (List γ)}
    {g : β → Except δ (List κ)}
    {xs : List α} (hfg : ∀ x ∈ xs, Mirrors (List.map h') (f x) (g (h x))) :
    Mirrors (List.map h') (gather f xs) (gather g (xs.map h)) := by
  exact (Mirrors.mapM hfg).map fun yss => List.map_flatten.symm

end Mirrors

/-! ## With a state -/

section State

variable {ε σ α β : Type}

/-- Run in state `s`, the step succeeds with value `a` and leaves state `s'`. -/
def Gives (x : ExceptT ε (StateM σ) α) (s : σ) (a : α) (s' : σ) : Prop :=
  x.run.run s = (.ok a, s')

theorem fst_run_eq_ok_iff {x : ExceptT ε (StateM σ) α} {s : σ} {a : α} :
    (x.run.run s).1 = .ok a ↔ ∃ s', Gives x s a s' := by
  constructor
  · intro h
    exact ⟨_, Prod.ext h rfl⟩
  · rintro ⟨s', h⟩
    exact congrArg Prod.fst h

theorem gives_pure {a b : α} {s s' : σ} :
    Gives (pure a : ExceptT ε (StateM σ) α) s b s' ↔ b = a ∧ s' = s := by
  constructor
  · intro h
    cases h
    exact ⟨rfl, rfl⟩
  · rintro ⟨rfl, rfl⟩
    rfl

theorem gives_bind {x : ExceptT ε (StateM σ) α} {f : α → ExceptT ε (StateM σ) β} {s s' : σ}
    {b : β} :
    Gives (x >>= f) s b s' ↔ ∃ a s₁, Gives x s a s₁ ∧ Gives (f a) s₁ b s' := by
  have hrun : (x >>= f).run.run s =
      match x.run.run s with
      | (.ok a, s₁) => (f a).run.run s₁
      | (.error e, s₁) => (.error e, s₁) := by
    rw [ExceptT.run_bind, StateT.run_bind]
    cases h : x.run.run s with
    | mk r s₁ =>
      cases r with
      | ok a => rfl
      | error e => rfl
  unfold Gives
  rw [hrun]
  constructor
  · intro h
    split at h
    · rename_i a s₁ hx
      exact ⟨a, s₁, hx, h⟩
    · cases h
  · rintro ⟨a, s₁, hx, hf⟩
    rw [hx]
    exact hf

theorem gives_get {s s' a : σ} :
    Gives (get : ExceptT ε (StateM σ) σ) s a s' ↔ a = s ∧ s' = s := by
  constructor
  · intro h
    cases h
    exact ⟨rfl, rfl⟩
  · rintro ⟨rfl, rfl⟩
    rfl

/-- A result that needs no state, as a step. -/
theorem gives_liftM {r : Except ε α} {s s' : σ} {a : α} :
    Gives (liftM r : ExceptT ε (StateM σ) α) s a s' ↔ r = .ok a ∧ s' = s := by
  cases r with
  | error e =>
    constructor
    · intro h
      cases h
    · rintro ⟨h, -⟩
      cases h
  | ok b =>
    constructor
    · intro h
      cases h
      exact ⟨rfl, rfl⟩
    · rintro ⟨h, rfl⟩
      cases h
      rfl

/-- The reason of a failure may be put in other words. -/
theorem gives_adapt {δ : Type} {x : ExceptT ε (StateM σ) α} {f : ε → δ} {s s' : σ} {a : α} :
    Gives (x.adapt f) s a s' ↔ Gives x s a s' := by
  have hrun : (x.adapt f).run.run s = ((x.run.run s).1.mapError f, (x.run.run s).2) := rfl
  unfold Gives
  rw [hrun]
  cases x.run.run s with
  | mk r s₁ =>
    cases r with
    | ok b =>
      constructor
      · intro h
        cases h
        rfl
      · intro h
        cases h
        rfl
    | error e =>
      constructor
      · intro h
        cases h
      · intro h
        cases h

theorem gives_discard {x : ExceptT ε (StateM σ) α} {s s' : σ} {u : PUnit} :
    Gives (discard x) s u s' ↔ ∃ a, Gives x s a s' := by
  have hmap : discard x = x >>= fun _ => pure PUnit.unit := rfl
  rw [hmap, gives_bind]
  constructor
  · rintro ⟨a, s₁, hx, hp⟩
    obtain ⟨-, rfl⟩ := gives_pure.mp hp
    exact ⟨a, hx⟩
  · rintro ⟨a, hx⟩
    exact ⟨a, s', hx, gives_pure.mpr ⟨rfl, rfl⟩⟩

theorem run_get_bind (f : σ → ExceptT ε (StateM σ) α) (s : σ) :
    (get >>= f).run.run s = (f s).run.run s := rfl

theorem run_liftM_bind (r : Except ε α) (f : α → ExceptT ε (StateM σ) β) (s : σ) :
    (liftM r >>= f).run.run s =
      match r with
      | .ok a => (f a).run.run s
      | .error e => (.error e, s) := by
  cases r <;> rfl

/-! ### Repetitions -/

theorem gives_mapM_nil {f : α → ExceptT ε (StateM σ) β} {s s' : σ} {bs : List β} :
    Gives ([].mapM f) s bs s' ↔ bs = [] ∧ s' = s := by
  rw [List.mapM_nil, gives_pure]

theorem gives_mapM_cons {f : α → ExceptT ε (StateM σ) β} {x : α} {xs : List α} {s s' : σ}
    {bs : List β} :
    Gives ((x :: xs).mapM f) s bs s' ↔
      ∃ b s₁ bs', Gives (f x) s b s₁ ∧ Gives (xs.mapM f) s₁ bs' s' ∧ bs = b :: bs' := by
  rw [List.mapM_cons, gives_bind]
  refine exists_congr fun b => exists_congr fun s₁ => ?_
  rw [gives_bind]
  constructor
  · rintro ⟨hb, bs', s₂, hbs, hp⟩
    obtain ⟨rfl, rfl⟩ := gives_pure.mp hp
    exact ⟨bs', hb, hbs, rfl⟩
  · rintro ⟨bs', hb, hbs, rfl⟩
    exact ⟨hb, bs', s', hbs, gives_pure.mpr ⟨rfl, rfl⟩⟩

theorem gives_mapM_append {f : α → ExceptT ε (StateM σ) β} {xs ys : List α} {s s' : σ}
    {bs : List β} :
    Gives ((xs ++ ys).mapM f) s bs s' ↔
      ∃ bs₁ s₁ bs₂, Gives (xs.mapM f) s bs₁ s₁ ∧ Gives (ys.mapM f) s₁ bs₂ s' ∧ bs = bs₁ ++ bs₂ := by
  rw [List.mapM_append, gives_bind]
  refine exists_congr fun bs₁ => exists_congr fun s₁ => ?_
  rw [gives_bind]
  constructor
  · rintro ⟨h₁, bs₂, s₂, h₂, hp⟩
    obtain ⟨rfl, rfl⟩ := gives_pure.mp hp
    exact ⟨bs₂, h₁, h₂, rfl⟩
  · rintro ⟨bs₂, h₁, h₂, rfl⟩
    exact ⟨h₁, bs₂, s', h₂, gives_pure.mpr ⟨rfl, rfl⟩⟩

end State

end QubitRouting
