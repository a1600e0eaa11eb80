import Recast.Text.Span

/-!
# Degradations

A record of a place where the C++ text only approximates the Go source: a call
replaced by a placeholder, or arguments that were left out.
-/

namespace Recast

/-- What was lost. -/
inductive Loss where
  | unrecognizedCall
  | droppedArguments (count : Nat)
  deriving Repr, DecidableEq, Inhabited

/-- What was lost, and the call in which it was. -/
structure Degradation where
  loss : Loss
  quote : String
  span : Span
  deriving Repr, DecidableEq, Inhabited

end Recast
