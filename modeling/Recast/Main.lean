import Recast.CommandLine

/-!
# The program

The command on the machine's own files.
-/

namespace Recast

/-- The error of the machine's file system. -/
def OsError.ofIO (e : IO.Error) : OsError :=
  match e with
  | .noFileOrDirectory .. => .notFound
  | .resourceExhausted .. => .noSpace
  | .inappropriateType _ 20 _ => .notDirectory
  | .inappropriateType .. => .isDirectory
  | e => .other (toString e)

/-- The outcome of an action, its error as a value. -/
def attempt {α : Type} (act : IO α) : IO (Except OsError α) := do
  try return .ok (← act)
  catch e => return .error (.ofIO e)

/-- The machine's files. A handle keeps the bytes that it could not write and tries them again
by itself when it is closed, so a write takes all of its bytes even if it fails. -/
def machineFiles : FileOps IO where
  Handle := IO.FS.Handle
  read path := attempt (IO.FS.readBinFile path)
  create path := attempt (IO.FS.Handle.mk path .write)
  write h bytes := do
    let written ← attempt do
      h.write bytes
      h.flush
    return written.mapError fun e => ⟨e, bytes.size⟩

end Recast

def main (args : List String) : IO UInt32 := do
  let outcome ← Recast.CommandLine.run Recast.machineFiles args
  IO.eprint outcome.said
  return if outcome.success then 0 else 1
