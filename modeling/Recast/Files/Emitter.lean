import Recast.Files.Operations

/-!
# Emitters

An emitter collects text in a buffer and writes the buffer when it is full. A
write that fails is held back until the emitter is finished; from then on
no text is taken. Finishing writes what is left, lets go of the buffer and tells
the first failure. A buffer that could not be written out keeps the bytes that
were not taken, and letting go of it tries these once more.
-/

namespace Recast

/-- A buffer before a file, and the first failure of a write. -/
structure Emitter where
  pending : ByteArray
  failure : Option OsError

namespace Emitter

/-- The number of bytes that the buffer holds. -/
def capacity : Nat := 8192

def empty : Emitter := ⟨.empty, none⟩

variable {m : Type → Type} [Monad m]

/-- Writes out the buffer, unless it is empty. What a failed write did not take stays. -/
def flush (ops : FileOps m) (h : ops.Handle) (e : Emitter) : m Emitter := do
  if e.pending.isEmpty then return e
  else
    match ← ops.write h e.pending with
    | .ok () => return { e with pending := .empty }
    | .error w => return ⟨e.pending.extract w.taken e.pending.size, some w.error⟩

/-- Takes bytes that do not fit beside the buffer's own: the buffer is written
out if they do not fill it exactly, and they pass it by if they fill it alone. -/
def overflow (ops : FileOps m) (h : ops.Handle) (e : Emitter) (bytes : ByteArray) :
    m Emitter := do
  let e ← if bytes.size > capacity - e.pending.size then flush ops h e else pure e
  if e.failure.isSome then return e
  else if bytes.size ≥ capacity then
    match ← ops.write h bytes with
    | .ok () => return e
    | .error w => return { e with failure := some w.error }
  else return { e with pending := e.pending ++ bytes }

def emit (ops : FileOps m) (h : ops.Handle) (e : Emitter) (text : String) : m Emitter :=
  let bytes := text.toUTF8
  if e.failure.isSome then pure e
  else if bytes.size < capacity - e.pending.size then
    pure { e with pending := e.pending ++ bytes }
  else overflow ops h e bytes

def emitAll (ops : FileOps m) (h : ops.Handle) : Emitter → List String → m Emitter
  | e, [] => pure e
  | e, text :: texts => do emitAll ops h (← emit ops h e text) texts

/-- Lets go of the buffer and tells the failure. What a failed write left in the buffer
is written once more, whether that fails again or not. -/
def close (ops : FileOps m) (h : ops.Handle) (e : Emitter) : m (Except OsError Unit) := do
  let _ ← flush ops h e
  match e.failure with
  | some f => return .error f
  | none => return .ok ()

/-- Writes what is left, unless a write failed before, and tells the first failure if
there was one. -/
def finish (ops : FileOps m) (h : ops.Handle) (e : Emitter) : m (Except OsError Unit) := do
  if e.failure.isSome then close ops h e else close ops h (← flush ops h e)

end Emitter

end Recast
