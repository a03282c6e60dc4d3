import Mathlib.Data.List.Nodup
import QubitRouting.Command.Files
import QubitRouting.Proofs.Command.Paths
import QubitRouting.Proofs.Steps

/-!
# Trees of files

Where paths lead, and what changes in a tree when directories are made and files are written.
Directories stay where they are in all of this (`FileTree.Keeps`), so that paths go on leading to
the same places.
-/

set_option autoImplicit false

namespace QubitRouting.FileTree

variable {t t' : FileTree} {place : List String}

/-! ## Places -/

theorem get?_set_of_ne {place' : List String} (node : FileNode) (h : place' ≠ place) :
    (t.set place node).get? place' = t.get? place' := by
  rw [get?, get?, set, Std.ExtTreeMap.getElem?_insert]
  rw [if_neg (fun hcmp => h (Std.LawfulEqOrd.eq_of_compare hcmp).symm)]

theorem get?_set_self (node : FileNode) (h : isAround place = false) :
    (t.set place node).get? place = some node := by
  rw [get?, set, h, if_neg Bool.false_ne_true, Std.ExtTreeMap.getElem?_insert_self]

theorem isAround_append_name {name : String} (h : Path.IsName name) :
    isAround (place ++ [name]) = false := by
  have hslash : place ++ [name] ≠ ["/"] := by
    intro heq
    have hlast := congrArg List.getLast? heq
    obtain rfl : name = "/" := by simpa using hlast
    exact h.no_slash (by decide)
  simp [isAround, h.ne_up, hslash]

/-- Every directory of `t` is one of `t'`. -/
def Keeps (t t' : FileTree) : Prop :=
  ∀ place, t.get? place = some .directory → t'.get? place = some .directory

/-- Where one step leads from a directory. -/
def advance (place : List String) (step : String) : Except FileError (List String) :=
  if step = "" ∨ step = "." then .ok place
  else if step = ".." then .ok (around place)
  else if maxName < step.utf8ByteSize then .error .nameTooLong
  else .ok (place ++ [step])

theorem advance_name {name : String} (h : Path.IsName name) :
    advance place name = if maxName < name.utf8ByteSize then .error .nameTooLong
      else .ok (place ++ [name]) := by
  simp [advance, h.ne_empty, h.ne_here, h.ne_up]

theorem follow_cons (h : t.get? place = some .directory) (step : String) (steps : List String) :
    t.follow place (step :: steps) = advance place step >>= fun next => t.follow next steps := by
  rw [follow, h, advance]
  split_ifs <;> rfl

theorem follow_cons_eq_ok_iff {step : String} {steps place' : List String} :
    t.follow place (step :: steps) = .ok place' ↔
      t.get? place = some .directory ∧ ∃ next, advance place step = .ok next ∧
      t.follow next steps = .ok place' := by
  constructor
  · intro h
    have hplace : t.get? place = some .directory := by
      rw [follow] at h
      split at h
      · cases h
      · cases h
      · assumption
    rw [follow_cons hplace] at h
    exact ⟨hplace, bind_eq_ok_iff.mp h⟩
  · rintro ⟨hplace, hnext⟩
    rw [follow_cons hplace]
    exact bind_eq_ok_iff.mpr hnext

theorem Keeps.follow (hkeeps : t.Keeps t') {steps place' : List String}
    (h : t.follow place steps = .ok place') : t'.follow place steps = .ok place' := by
  induction steps generalizing place with
  | nil => exact h
  | cons step steps ih =>
    obtain ⟨hplace, next, hnext, h⟩ := follow_cons_eq_ok_iff.mp h
    exact follow_cons_eq_ok_iff.mpr ⟨hkeeps place hplace, next, hnext, ih h⟩

theorem follow_append {before place' : List String} (h : t.follow place before = .ok place')
    (after : List String) : t.follow place (before ++ after) = t.follow place' after := by
  induction before generalizing place with
  | nil => rw [← Except.ok.inj h, List.nil_append]
  | cons step before ih =>
    obtain ⟨hplace, next, hnext, h⟩ := follow_cons_eq_ok_iff.mp h
    rw [List.cons_append, follow_cons hplace, hnext]
    exact ih h

theorem exists_follow_of_append {before after place' : List String}
    (h : t.follow place (before ++ after) = .ok place') :
    ∃ middle, t.follow place before = .ok middle ∧ t.follow middle after = .ok place' := by
  induction before generalizing place with
  | nil => exact ⟨place, rfl, h⟩
  | cons step before ih =>
    obtain ⟨hplace, next, hnext, h⟩ := follow_cons_eq_ok_iff.mp h
    obtain ⟨middle, hbefore, hafter⟩ := ih h
    exact ⟨middle, follow_cons_eq_ok_iff.mpr ⟨hplace, next, hnext, hbefore⟩, hafter⟩

/-- Slashes at the end of a path lead nowhere else. -/
theorem follow_slashes (h : t.get? place = some .directory) {steps : List String}
    (hsteps : ∀ s ∈ steps, s = "") :
    t.follow place steps = .ok place := by
  induction steps with
  | nil => rfl
  | cons step steps ih =>
    rw [hsteps step List.mem_cons_self, follow_cons h]
    exact ih fun s hs => hsteps s (List.mem_cons_of_mem _ hs)

/-! ## Paths in a directory -/

/-- A path leads to a directory; the empty path to the current one. -/
structure Leads (t : FileTree) (path : String) (place : List String) : Prop where
  resolved : path = "" ∧ place = [] ∨ t.resolve path = .ok place
  directory : t.get? place = some .directory

theorem Leads.keeps {path : String} (h : t.Leads path place) (hkeeps : t.Keeps t') :
    t'.Leads path place := by
  refine ⟨?_, hkeeps place h.directory⟩
  rcases h.resolved with hempty | hresolve
  · exact .inl hempty
  · obtain ⟨⟨origin, steps⟩, hstart, hfollow⟩ := bind_eq_ok_iff.mp hresolve
    exact .inr (bind_eq_ok_iff.mpr ⟨(origin, steps), hstart, hkeeps.follow hfollow⟩)

theorem eq_of_ite_eq_ok {ε α : Type} {p : Prop} [Decidable p] {e : ε} {a b : α}
    (h : (if p then .error e else .ok a : Except ε α) = .ok b) : a = b := by
  split_ifs at h
  exact Except.ok.inj h

theorem start_absolute {path : String} {steps : List String} (h : Path.steps path = "" :: steps)
    (hsteps : steps ≠ []) :
    start path = if maxPath < path.utf8ByteSize then .error .nameTooLong
      else .ok (["/"], steps) := by
  obtain ⟨step, rest, rfl⟩ := List.exists_cons_of_ne_nil hsteps
  rw [start, h]
  rfl

theorem start_relative {path step : String} {steps : List String}
    (h : Path.steps path = step :: steps) (hstep : step ≠ "") :
    start path = if maxPath < path.utf8ByteSize then .error .nameTooLong
      else .ok ([], step :: steps) := by
  rw [start, h]
  split
  · rfl
  · split
    case h_1 heq => exact absurd (List.cons.inj heq).1 hstep
    case h_2 heq => exact absurd (List.cons.inj heq).1 hstep
    case h_3 => rfl

/-- The start of a path in a directory is that of the directory. -/
theorem start_join {directory name : String} {origin steps : List String} (hname : Path.IsName name)
    (h : start directory = .ok (origin, steps)) :
    ∃ before, (steps = before ∨ steps = before ++ [""]) ∧
      start (Path.join directory name) =
        if maxPath < (Path.join directory name).utf8ByteSize then .error .nameTooLong
        else .ok (origin, before ++ [name]) := by
  have hempty : directory ≠ "" := by
    rintro rfl
    cases h
  obtain ⟨before, hbefore, hjoin, hsteps⟩ := Path.exists_steps_join hempty hname
  obtain ⟨step, before, rfl⟩ := List.exists_cons_of_ne_nil hbefore
  by_cases hstep : step = ""
  · subst hstep
    rw [start_absolute hjoin (by simp)]
    refine ⟨before, ?_⟩
    rcases hsteps with hsteps | hsteps
    · have hne : before ≠ [] := by
        rintro rfl
        rw [start, hsteps] at h
        split_ifs at h
        cases h
      rw [start_absolute hsteps hne] at h
      obtain ⟨rfl, rfl⟩ := Prod.mk.inj (eq_of_ite_eq_ok h)
      exact ⟨.inl rfl, rfl⟩
    · rw [start_absolute hsteps (by simp)] at h
      obtain ⟨rfl, rfl⟩ := Prod.mk.inj (eq_of_ite_eq_ok h)
      exact ⟨.inr rfl, rfl⟩
  · rw [start_relative hjoin hstep]
    refine ⟨step :: before, ?_⟩
    rcases hsteps with hsteps | hsteps
    · rw [start_relative hsteps hstep] at h
      obtain ⟨rfl, rfl⟩ := Prod.mk.inj (eq_of_ite_eq_ok h)
      exact ⟨.inl rfl, rfl⟩
    · rw [start_relative hsteps hstep] at h
      obtain ⟨rfl, rfl⟩ := Prod.mk.inj (eq_of_ite_eq_ok h)
      exact ⟨.inr rfl, rfl⟩

theorem Leads.exists_start_join {directory name : String} (h : t.Leads directory place)
    (hname : Path.IsName name) :
    ∃ origin before, t.follow origin before = .ok place ∧
      start (Path.join directory name) =
        if maxPath < (Path.join directory name).utf8ByteSize then .error .nameTooLong
        else .ok (origin, before ++ [name]) := by
  rcases h.resolved with ⟨rfl, rfl⟩ | hresolve
  · exact ⟨[], [], rfl, start_relative (Path.steps_name hname) hname.ne_empty⟩
  · obtain ⟨⟨origin, steps⟩, hstart, hfollow⟩ := bind_eq_ok_iff.mp hresolve
    obtain ⟨before, hsteps, hjoin⟩ := start_join hname hstart
    refine ⟨origin, before, ?_, hjoin⟩
    rcases hsteps with rfl | rfl
    · exact hfollow
    · obtain ⟨middle, hmiddle, hslash⟩ := exists_follow_of_append hfollow
      rw [hmiddle, ← hslash]
      exact (follow_slashes (follow_cons_eq_ok_iff.mp hslash).1 (by simp)).symm

theorem Leads.resolve_join {directory name : String} (h : t.Leads directory place)
    (hname : Path.IsName name) :
    t.resolve (Path.join directory name) =
      if maxPath < (Path.join directory name).utf8ByteSize ∨
      maxName < name.utf8ByteSize then .error .nameTooLong
      else .ok (place ++ [name]) := by
  obtain ⟨origin, before, hbefore, hstart⟩ := h.exists_start_join hname
  rw [resolve, hstart]
  by_cases hpath : maxPath < (Path.join directory name).utf8ByteSize
  · rw [if_pos hpath, if_pos (.inl hpath)]
    rfl
  · rw [if_neg hpath]
    show t.follow origin (before ++ [name]) = _
    rw [follow_append hbefore, follow_cons h.directory, advance_name hname]
    simp only [hpath, false_or]
    split_ifs <;> rfl

/-! ## Files of a directory -/

/-- The last name on the way to everything in the tree is a name. -/
def Named (t : FileTree) : Prop := ∀ place name, place ++ [name] ∈ t.nodes → Path.IsName name

theorem named_iff :
    t.Named ↔ ∀ other ∈ t.nodes.keys, ∀ name ∈ other.getLast?, Path.IsName name := by
  constructor
  · intro h other hother name hname
    obtain ⟨place, rfl⟩ := List.getLast?_eq_some_iff.mp hname
    exact h place name (Std.ExtTreeMap.mem_keys.mp hother)
  · intro h place name hmem
    exact h _ (Std.ExtTreeMap.mem_keys.mpr hmem) name List.getLast?_concat

instance (t : FileTree) : Decidable t.Named := decidable_of_iff _ named_iff.symm

theorem find_eq_ok_iff {path : String} {node : FileNode} :
    t.find path = .ok node ↔ ∃ place, t.resolve path = .ok place ∧ t.get? place = some node := by
  rw [find, bind_eq_ok_iff]
  refine exists_congr fun place => and_congr_right fun _ => ?_
  split
  case h_1 other hother => rw [hother, Except.ok.injEq, Option.some.injEq]
  case h_2 hnone => simp [hnone]

theorem read_eq_ok_iff {path text : String} :
    t.read path = .ok text ↔ t.find path = .ok (.file text) := by
  rw [read, bind_eq_ok_iff]
  constructor
  · rintro ⟨node, hnode, h⟩
    split at h
    · obtain rfl := Except.ok.inj h
      exact hnode
    · cases h
  · intro h
    exact ⟨.file text, h, rfl⟩

/-- All that is new in `t'` are directories, where nothing was. -/
def Grows (t t' : FileTree) : Prop :=
  ∀ place, t'.get? place = t.get? place ∨ t.get? place = none ∧ t'.get? place = some .directory

theorem Grows.refl (t : FileTree) : t.Grows t := fun _ => .inl rfl

theorem Grows.trans {t'' : FileTree} (h : t.Grows t') (h' : t'.Grows t'') : t.Grows t'' := by
  intro place
  rcases h' place with heq | ⟨hnone, hdirectory⟩
  · rw [heq]
    exact h place
  · rcases h place with heq | ⟨-, hdirectory'⟩
    · exact .inr ⟨heq ▸ hnone, hdirectory⟩
    · rw [hnone] at hdirectory'
      cases hdirectory'

theorem Grows.keeps (h : t.Grows t') : t.Keeps t' := by
  intro place hplace
  rcases h place with heq | ⟨hnone, -⟩
  · rw [heq, hplace]
  · rw [hnone] at hplace
    cases hplace

section Making

open FileAccess (makeAll excuse makeDirectory)

end Making

/-! ## Writing files -/

/-- A file can be written at a path: it leads to a place where no directory is. -/
def writable (t : FileTree) (path : String) : Bool :=
  match t.resolve path with
  | .ok place => t.get? place ≠ some .directory
  | .error _ => false

/-- A path in a directory that the system takes: neither it nor the name is too long. -/
def Fits (directory name : String) : Prop :=
  ¬ (maxPath < (Path.join directory name).utf8ByteSize ∨ maxName < name.utf8ByteSize)

theorem Leads.resolve_join_eq_ok_iff {directory name : String} {place' : List String}
    (h : t.Leads directory place) (hname : Path.IsName name) :
    t.resolve (Path.join directory name) = .ok place' ↔
      Fits directory name ∧ place' = place ++ [name] := by
  rw [h.resolve_join hname, Fits]
  split_ifs with hlong
  · simp [hlong]
  · simp [hlong, eq_comm]

theorem Leads.exists_resolve_join_iff {directory name : String} {P : List String → Prop}
    (h : t.Leads directory place) (hname : Path.IsName name) :
    (∃ place', t.resolve (Path.join directory name) = .ok place' ∧ P place') ↔
      Fits directory name ∧ P (place ++ [name]) := by
  simp only [h.resolve_join_eq_ok_iff hname]
  constructor
  · rintro ⟨_, ⟨hfits, rfl⟩, hP⟩
    exact ⟨hfits, hP⟩
  · rintro ⟨hfits, hP⟩
    exact ⟨_, ⟨hfits, rfl⟩, hP⟩

theorem Leads.read_join_eq_ok_iff {directory name text : String} (h : t.Leads directory place)
    (hname : Path.IsName name) :
    t.read (Path.join directory name) = .ok text ↔
      Fits directory name ∧ t.get? (place ++ [name]) = some (.file text) := by
  rw [read_eq_ok_iff, find_eq_ok_iff]
  exact h.exists_resolve_join_iff hname

end QubitRouting.FileTree
