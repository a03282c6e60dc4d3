import QubitRouting.Command.Path
import Std.Data.ExtTreeMap

/-!
# Files

Commands reach files through `FileAccess` only. A `FileTree` is a tree of files in memory: on it a
command is a function from trees to trees.
-/

set_option autoImplicit false

namespace QubitRouting

/-- What can stand at a path. -/
inductive FileKind where
  | file
  | directory
deriving DecidableEq, Repr

/-- Why a file could not be reached, with the system's number for it. -/
structure FileError where
  reason : String
  code : Nat
deriving DecidableEq, Repr

namespace FileError

def message (e : FileError) : String := s!"{e.reason} (os error {e.code})"

def missing : FileError := ⟨"No such file or directory", 2⟩

def taken : FileError := ⟨"File exists", 17⟩

def notDirectory : FileError := ⟨"Not a directory", 20⟩

def isDirectory : FileError := ⟨"Is a directory", 21⟩

def nameTooLong : FileError := ⟨"File name too long", 36⟩

end FileError

/-- Access to files by their paths. -/
class FileAccess (m : Type → Type) where
  kind? : String → m (Option FileKind)
  read : String → m (Except FileError String)
  /-- The names of what is in a directory. -/
  names : String → m (Except FileError (List String))
  /-- Makes a directory where nothing is, in one that is there. -/
  makeAt : String → m (Except FileError Unit)
  write : String → String → m (Except FileError Unit)

namespace FileAccess

variable {m : Type → Type} [Monad m] [FileAccess m]

/-- The outcome of making a directory that could not be made: one that is there already will do. -/
def excuse (path : String) (e : FileError) : m (Except FileError Unit) := do
  return if (← kind? path) == some .directory then .ok () else .error e

/-- Makes the first of some directories, each of which is in the next one. Those around it are made
only if it cannot be made without. -/
def makeAll : List String → m (Except FileError Unit)
  | [] => return .ok ()
  | path :: parents => do
    match ← makeAt path with
    | .ok () => return .ok ()
    | .error e =>
      if e.code = FileError.missing.code then
        match ← makeAll parents with
        | .ok () =>
          match ← makeAt path with
          | .ok () => return .ok ()
          | .error e => excuse path e
        | .error e => return .error e
      else excuse path e

/-- Makes a directory, with those that it is in, unless it is there. The empty path is the current
directory. -/
def makeDirectory (path : String) : m (Except FileError Unit) :=
  if path = "" then return .ok () else makeAll (path :: Path.parents path)

end FileAccess

/-- A file with its text, or a directory. -/
inductive FileNode where
  | file (text : String)
  | directory
deriving DecidableEq, Repr

/-- Files and directories by the names that lead to them; no names lead to the directory that holds
all others. -/
structure FileTree where
  nodes : Std.ExtTreeMap (List String) FileNode

namespace FileTree

def empty : FileTree := ⟨∅⟩

/-- Whether a place is the directory of the tree, one around it, or the one that holds all. -/
def isAround (place : List String) : Bool := place.all (· = "..") || place = ["/"]

/-- What is at a place. Nothing is known of what is outside the tree, except that the directories
around it are there. -/
def get? (t : FileTree) (place : List String) : Option FileNode :=
  if isAround place then some .directory else t.nodes[place]?

def set (t : FileTree) (place : List String) (node : FileNode) : FileTree :=
  ⟨t.nodes.insert place node⟩

/-- The place around a place. -/
def around (place : List String) : List String :=
  if place = ["/"] then place
  else if isAround place then ".." :: place
  else place.dropLast

/-- The longest name that a file can have, and the longest path, in bytes. -/
def maxName : Nat := 255

def maxPath : Nat := 4095

/-- Goes on from a place along the steps of a path. Each step starts in a directory. -/
def follow (t : FileTree) : List String → List String → Except FileError (List String)
  | place, [] => .ok place
  | place, step :: steps =>
    match t.get? place with
    | none => .error .missing
    | some (.file _) => .error .notDirectory
    | some .directory =>
      if step = "" ∨ step = "." then t.follow place steps
      else if step = ".." then t.follow (around place) steps
      else if maxName < step.utf8ByteSize then .error .nameTooLong
      else t.follow (place ++ [step]) steps

/-- Where a path starts, and its steps. -/
def start (path : String) : Except FileError (List String × List String) :=
  if maxPath < path.utf8ByteSize then .error .nameTooLong
  else
    match Path.steps path with
    | [""] => .error .missing
    | "" :: steps => .ok (["/"], steps)
    | steps => .ok ([], steps)

/-- The place to which a path leads; something may be there or not. -/
def resolve (t : FileTree) (path : String) : Except FileError (List String) := do
  let (place, steps) ← start path
  t.follow place steps

/-- What is at a path. -/
def find (t : FileTree) (path : String) : Except FileError FileNode := do
  let place ← t.resolve path
  match t.get? place with
  | some node => .ok node
  | none => .error .missing

def kind? (t : FileTree) (path : String) : Option FileKind :=
  match t.find path with
  | .ok (.file _) => some .file
  | .ok .directory => some .directory
  | .error _ => none

def read (t : FileTree) (path : String) : Except FileError String := do
  match ← t.find path with
  | .file text => .ok text
  | .directory => .error .isDirectory

/-- The name that leads from one place to another, if it is one name. -/
def child? (place other : List String) : Option String :=
  match other.getLast? with
  | some name => if other.dropLast = place then some name else none
  | none => none

def names (t : FileTree) (path : String) : Except FileError (List String) := do
  match ← t.find path with
  | .file _ => .error .notDirectory
  | .directory =>
    let place ← t.resolve path
    return t.nodes.keys.filterMap (child? place)

def write (t : FileTree) (path text : String) : Except FileError FileTree := do
  let place ← t.resolve path
  match t.get? place with
  | some .directory => .error .isDirectory
  | _ => .ok (t.set place (.file text))

/-- Makes a directory where nothing is. -/
def makeAt (t : FileTree) (path : String) : Except FileError FileTree := do
  let (place, steps) ← start path
  -- slashes at the end do not count
  let steps := (steps.reverse.dropWhile (· = "")).reverse
  let parent ← t.follow place steps.dropLast
  let place ← t.follow parent steps.getLast?.toList
  match t.get? place with
  | some _ => .error .taken
  | none => .ok (t.set place .directory)

/-- Whether a place is outside the tree. -/
def isOutside (place : List String) : Bool := place.head? = some ".." || place.head? = some "/"

/-- The files that are not in another tree with the same text, with their paths. -/
def changedSince (t before : FileTree) : List (String × String) :=
  t.nodes.toList.filterMap fun (place, node) =>
    match node with
    | .directory => none
    | .file text =>
      if isOutside place || before.get? place = some (.file text) then none
      else some (String.intercalate "/" place, text)

/-- A step that changes the tree if it succeeds. -/
def update (f : FileTree → Except FileError FileTree) :
    StateM FileTree (Except FileError Unit) := do
  match f (← get) with
  | .ok t =>
    MonadState.set t
    return .ok ()
  | .error e => return .error e

instance : FileAccess (StateM FileTree) where
  kind? path := do return (← get).kind? path
  read path := do return (← get).read path
  names path := do return (← get).names path
  makeAt path := update (·.makeAt path)
  write path text := update (·.write path text)

end FileTree

end QubitRouting
