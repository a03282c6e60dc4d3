/-!
# Paths

A path is a text of names with slashes between them.
-/

set_option autoImplicit false

namespace QubitRouting.Path

/-- The texts between the slashes. -/
def split : List Char → List (List Char)
  | [] => [[]]
  | c :: cs =>
    if c = '/' then [] :: split cs
    else
      match split cs with
      | [] => [[c]]
      | first :: rest => (c :: first) :: rest

/-- The steps of a path; an empty one comes from a slash at the end or from two in a row. -/
def steps (path : String) : List String := (split path.toList).map String.ofList

/-- The path of a name inside a directory. The empty path is the current directory. -/
def join (directory name : String) : String :=
  if directory = "" then name
  else if directory.toList.getLast? = some '/' then directory ++ name
  else directory ++ "/" ++ name

/-- The steps of a path that matter. Of the steps to the current directory only one at the start
does. -/
def components (path : String) : List String :=
  let real (step : String) : Bool := step != "" && step != "."
  match steps path with
  | "." :: rest => "." :: rest.filter real
  | all => all.filter real

/-- The last name of a path. Slashes and dots behind it do not count. -/
def fileName? (path : String) : Option String :=
  match (components path).getLast? with
  | some ".." => none
  | some "." => none
  | name => name

/-- The paths of the directories around a path, the closest first. The directory in which a path
without a slash at the start begins is not among them. -/
def parents (path : String) : List String :=
  let cs := components path
  let lengths := (List.range cs.length).reverse
  if (steps path).head? = some "" && path != "" then
    lengths.map fun n => "/" ++ String.intercalate "/" (cs.take n)
  else (lengths.filter (0 < ·)).map fun n => String.intercalate "/" (cs.take n)

/-- What follows the last dot of a file's name, which is not the first character of it. -/
def extension? (path : String) : Option String := do
  let name ← fileName? path
  let reversed := name.toList.reverse
  let tail := reversed.takeWhile (· ≠ '.')
  -- the dot and at least one character before it
  if tail.length + 1 < reversed.length then some (String.ofList tail.reverse) else none

/-- Whether a file has this extension, in any letter case. -/
def hasExtension (path extension : String) : Bool :=
  (extension? path).map (·.toLower) = some extension

end QubitRouting.Path
