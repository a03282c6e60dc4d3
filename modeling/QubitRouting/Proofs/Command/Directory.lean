import QubitRouting.Command.Run
import QubitRouting.Proofs.Command.Trees

/-!
# Mapping the files of a directory

A run of the `map` command over a directory, on a tree of files. The files are mapped one after the
other in a tree that changes with each of them, and the output may go into the directory that they
are read from. What holds between two files (`Midway`) is that all that is still to be mapped is as
it was at the start, so that the whole run can be told from the tree at the start
(`MapOptions.PerFile`).
-/

set_option autoImplicit false

namespace QubitRouting

/-! ## Running commands -/

namespace CommandM

variable {α β : Type} {x : CommandM (StateM FileTree) α} {printed printed' : String}
  {t t' : FileTree}

/-- What a command gives, with all that is printed and the files afterwards. -/
def result (x : CommandM (StateM FileTree) α) (printed : String) (t : FileTree) :
    (Except CommandError α × String) × FileTree :=
  (x.run.run printed).run t

end CommandM

/-! ## The files of a directory -/

open CommandM

/-- The name of a regular file in a directory that is named as circuit files are. -/
structure FileTree.IsCircuit (tree : FileTree) (directory name : String) : Prop where
  isName : Path.IsName name
  isCircuitName : Path.IsCircuitName name
  isFile : ∃ source, tree.read (Path.join directory name) = .ok source

section Listing

variable {tree : FileTree} {directory : String} {inside : List String}

end Listing

/-! ## One file -/

/-- What the file at a path is mapped to. -/
def FileTree.mapped (tree : FileTree) (t : Topology) (c : Configuration) (path : String) :
    Option Pass.Mapped :=
  (tree.read path).toOption.bind fun source => (remap source t c.setup.mapper c.costs).toOption

section File

variable {t : Topology} {c : Configuration} {now : FileTree} {directory output name source : String}
  {printed : String}

end File

/-! ## All files in turn -/

/-- Before the files of some names are mapped, when others may be written already. Their sources are
those that are in `tree`, and the directories are those of `made`. -/
structure Midway (directory : String) (tree made now : FileTree) (inside : List String)
    (names : List String) :
    Prop where
  leads : now.Leads directory inside
  directories : ∀ place, now.get? place = some .directory ↔ made.get? place = some .directory
  sources : ∀ name ∈ names, ∃ source, tree.read (Path.join directory name) = .ok source ∧
    now.read (Path.join directory name) = .ok source

namespace Midway

variable {directory : String} {tree made now : FileTree} {inside outside names : List String}
  {first : String}

/-- Writing one file changes no directory, and no source but that of its own name, which is not
needed any more. -/
theorem write (h : Midway directory tree made now inside (first :: names))
    (hnames : ∀ name ∈ first :: names, Path.IsName name) (hfirst : first ∉ names)
    (hplace : now.get? (outside ++ [first]) ≠ some .directory) (text : String) :
    Midway directory tree made (now.set (outside ++ [first]) (.file text)) inside names := by
  have hdirectories (place : List String) :
      (now.set (outside ++ [first]) (.file text)).get? place = some .directory ↔
        now.get? place = some .directory := by
    by_cases heq : place = outside ++ [first]
    · rw [heq,
        FileTree.get?_set_self _ (FileTree.isAround_append_name (hnames first List.mem_cons_self))]
      simp [hplace]
    · rw [FileTree.get?_set_of_ne _ heq]
  have hleads := h.leads.keeps fun place => (hdirectories place).mpr
  refine ⟨hleads, fun place => (hdirectories place).trans (h.directories place),
    fun name hmem => ?_⟩
  have hname := hnames name (List.mem_cons_of_mem _ hmem)
  obtain ⟨source, htree, hnow⟩ := h.sources name (List.mem_cons_of_mem _ hmem)
  obtain ⟨hfits, hget⟩ := (h.leads.read_join_eq_ok_iff hname).mp hnow
  refine ⟨source, htree, (hleads.read_join_eq_ok_iff hname).mpr ⟨hfits, ?_⟩⟩
  rw [FileTree.get?_set_of_ne, hget]
  intro heq
  obtain rfl : name = first := by simpa using (List.append_inj' heq rfl).2
  exact hfirst hmem

end Midway

namespace MapOptions

variable {o : MapOptions} {tree made now : FileTree} {inside outside : List String} {t : Topology}
  {c : Configuration}

section Step

variable {first : String} {names : List String} (hout : made.Leads o.output outside)
  (h : Midway o.input tree made now inside (first :: names))
  (hnames : ∀ name ∈ first :: names, Path.IsName name)

include hout h hnames

end Step

end MapOptions

/-! ## Reports -/

namespace FileReport

/-- The sum of a number over some reports. -/
def sumOf (number : Report → Nat) (rs : List FileReport) : Nat :=
  (rs.map (number ·.report)).foldr (· + ·) 0

/-- What is printed once all files are mapped: a line for each file, or a document, and the totals,
which are sums of 64 bits. -/
def printed (format : ReportFormat) (t : Topology) (c : Configuration) (rs : List FileReport) :
    String :=
  let logicalQubits := sumOf (·.metrics.logicalQubits) rs % UInt64.size
  let twoQubitOps := sumOf (·.metrics.twoQubitOps) rs % UInt64.size
  let swaps := sumOf (·.metrics.swaps) rs % UInt64.size
  let cost := sumOf (·.cost.toNat) rs % UInt64.size
  match format with
  | .json =>
    let totals : Document := .record
      [("logical_qubits", .nat logicalQubits), ("two_qubit_ops", .nat twoQubitOps),
        ("swaps", .nat swaps), ("cost", .nat cost)]
    (Document.record [("files", .list (rs.map encode)), ("total", totals)]).renderIndented 0 ++ "\n"
  | .table =>
    let router := c.setup.mapper.router
    (s!"→ Mapping {rs.length} file(s) onto {t.size} qubits " ++
      s!"(mover {router.mover.name}, meeting {router.meeting.name})") ++ "\n" ++
      String.join (rs.map (·.line ++ "\n")) ++
      s!"✓ Inserted {swaps} swaps in total (cost {cost})" ++ "\n"

end FileReport

/-! ## Runs over a directory -/

/-- The configuration in a file, or the usual one. -/
def Configuration.LoadedFrom (tree : FileTree) : Option String → Configuration → Prop
  | none, c => c = {}
  | some path, c => ∃ source, tree.read path = .ok source ∧ Configuration.ofText path source = .ok c

namespace MapOptions

/-- All that is checked before the first file of a directory is mapped. The directory of the output
is there then. -/
structure Ready (o : MapOptions) (tree made : FileTree) (format : ReportFormat) (c : Configuration)
    (t : Topology) : Prop where
  report : ReportFormat.choose o.report = .ok format
  configured : ∃ c₀, Configuration.LoadedFrom tree o.configuration? c₀ ∧ c = o.override c₀
  device : c.setup.device.build = .ok t
  input : tree.kind? o.input = some .directory
  circuits : ∃ name, tree.IsCircuit o.input name
  output : (FileAccess.makeDirectory o.output : StateM FileTree _).run tree = (.ok (), made)

variable {o : MapOptions} {tree made : FileTree} {format : ReportFormat} {c : Configuration}
  {t : Topology}

end MapOptions

end QubitRouting
