/-!
# Operations on files

What a conversion asks of a file system: reading a file, creating one (or
emptying it), and writing on at its end. The operations act in any monad, so the
same conversion runs on the machine's files and on a `Store`.
-/

namespace Recast

/-- Why an operation on a file failed. -/
inductive OsError where
  | notFound
  | notDirectory
  | isDirectory
  | noSpace
  | nameTooLong
  | nulInName
  | notUtf8
  | other (text : String)
  deriving Repr, DecidableEq, Inhabited

namespace OsError

/-- The operating system's text for an error number. -/
def numbered (text : String) (number : Nat) : String :=
  text ++ " (os error " ++ toString number ++ ")"

def message : OsError → String
  | .notFound => numbered "No such file or directory" 2
  | .notDirectory => numbered "Not a directory" 20
  | .isDirectory => numbered "Is a directory" 21
  | .noSpace => numbered "No space left on device" 28
  | .nameTooLong => numbered "File name too long" 36
  | .nulInName => "file name contained an unexpected NUL byte"
  | .notUtf8 => "stream did not contain valid UTF-8"
  | .other text => text

end OsError

/-- Why a write failed, and how many of its bytes were written before it did. -/
structure ShortWrite where
  error : OsError
  taken : Nat
  deriving Repr, DecidableEq, Inhabited

/-- A file system. A handle stands for a file that is open for writing. -/
structure FileOps (m : Type → Type) where
  Handle : Type
  /-- The bytes of a file. -/
  read : (path : String) → m (Except OsError ByteArray)
  /-- Opens a file for writing, new or emptied. -/
  create : (path : String) → m (Except OsError Handle)
  /-- Writes at the end of what was written before. -/
  write : Handle → ByteArray → m (Except ShortWrite Unit)

namespace FileOps

/-- The text of a file. -/
def readText {m : Type → Type} [Monad m] (ops : FileOps m) (path : String) :
    m (Except OsError String) := do
  match ← ops.read path with
  | .error e => return .error e
  | .ok bytes =>
    match String.fromUTF8? bytes with
    | some text => return .ok text
    | none => return .error .notUtf8

end FileOps

end Recast
