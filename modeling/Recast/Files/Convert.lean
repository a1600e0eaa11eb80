import Recast.Conversion
import Recast.Files.Emitter

/-!
# Converting files

A file is converted in the order: read and parse the source, create the
destination, lower the functions, write the text. So a source that cannot be
read or parsed leaves the destination as it was, and one that cannot be lowered
leaves it empty.
-/

namespace Recast

variable {m : Type → Type} [Monad m]

/-- Writes a text to a file that is open. -/
def writeText (ops : FileOps m) (h : ops.Handle) (text : String) : m (Except OsError Unit) := do
  Emitter.finish ops h (← Emitter.emit ops h .empty text)

/-- Converts the file at `src` into the file at `dst`, with a given pool. -/
def convertFileOn (pool : Pool) (ops : FileOps m) (dst src : String)
    (options : ConversionOptions) : m (Except ConversionError Conversion) := do
  match ← ops.readText src with
  | .error e => return .error (.read src e.message)
  | .ok text =>
    match File.read ⟨text⟩ with
    | .error e => return .error (.source e)
    | .ok file =>
      match ← ops.create dst with
      | .error e => return .error (.write dst e.message)
      | .ok h =>
        match Conversion.ofFile pool ⟨text⟩ options file with
        | .error e => return .error e
        | .ok conversion =>
          match ← writeText ops h conversion.text with
          | .error e => return .error (.write dst e.message)
          | .ok () => return .ok conversion

@[inherit_doc convertFileOn]
def convertFile (ops : FileOps m) (dst src : String) (options : ConversionOptions) :
    m (Except ConversionError Conversion) :=
  convertFileOn .inOrder ops dst src options

end Recast
