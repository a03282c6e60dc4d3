import QubitRouting.Command.Run

/-!
# The program

The command line on the files of the system.
-/

set_option autoImplicit false

namespace QubitRouting

/-- The system's reason and number for an error. -/
def FileError.ofSystem : IO.Error → FileError
  | .alreadyExists _ code reason => ⟨reason, code.toNat⟩
  | .otherError code reason => ⟨reason, code.toNat⟩
  | .resourceBusy code reason => ⟨reason, code.toNat⟩
  | .resourceVanished code reason => ⟨reason, code.toNat⟩
  | .unsupportedOperation code reason => ⟨reason, code.toNat⟩
  | .hardwareFault code reason => ⟨reason, code.toNat⟩
  | .unsatisfiedConstraints code reason => ⟨reason, code.toNat⟩
  | .illegalOperation code reason => ⟨reason, code.toNat⟩
  | .protocolError code reason => ⟨reason, code.toNat⟩
  | .timeExpired code reason => ⟨reason, code.toNat⟩
  | .interrupted _ code reason => ⟨reason, code.toNat⟩
  | .noFileOrDirectory _ code reason => ⟨reason, code.toNat⟩
  | .invalidArgument _ code reason => ⟨reason, code.toNat⟩
  | .permissionDenied _ code reason => ⟨reason, code.toNat⟩
  | .resourceExhausted _ code reason => ⟨reason, code.toNat⟩
  | .inappropriateType _ code reason => ⟨reason, code.toNat⟩
  | .noSuchThing _ code reason => ⟨reason, code.toNat⟩
  | .unexpectedEof => ⟨"Unexpected end of file", 5⟩
  | .userError reason => ⟨reason, 5⟩

/-- The result of an action on files, or why it failed. -/
def attempt {α : Type} (action : IO α) : IO (Except FileError α) := do
  try
    return .ok (← action)
  catch e =>
    return .error (.ofSystem e)

/-- The entry of the current directory to which a path leads. -/
def entryAt (path : String) : IO.FS.DirEntry := ⟨".", path⟩

instance : FileAccess IO where
  kind? path := do
    if path = "" then return none
    match ← attempt (entryAt path).path.metadata with
    | .ok data => return some (if data.type == .dir then .directory else .file)
    | .error _ => return none
  read path := attempt (IO.FS.readFile path)
  names path := attempt do return (← (entryAt path).path.readDir).toList.map (·.fileName)
  makeAt path := attempt (IO.FS.createDir path)
  write path text := attempt (IO.FS.writeFile path text)

end QubitRouting

open QubitRouting in
def main (args : List String) : IO UInt32 := do
  let outcome : Outcome ← runArguments args (← IO.getEnv "QMAP_TOPOLOGY")
  let stdout ← IO.getStdout
  stdout.putStr outcome.stdout
  stdout.flush
  (← IO.getStderr).putStr outcome.stderr
  return outcome.code.toUInt32
