import Recast.Degradation
import Recast.Rejection

/-!
# Recorded outcomes

An outcome with the degradations on the way to it. One step follows another until
one fails, and what was lost up to then stays on record.
-/

namespace Recast

/-- An outcome, and what was lost on the way to it, in order. -/
structure Recorded (α : Type) where
  result : Except Fault α
  lost : List Degradation

namespace Recorded

variable {α β : Type}

/-- An outcome on the way to which nothing was lost. -/
def ofExcept (r : Except Fault α) : Recorded α := ⟨r, []⟩

/-- Records what is lost at a span, with the text there. -/
def degrade (src : Source) (loss : Loss) (span : Span) : Recorded Unit :=
  match src.quote span with
  | .ok quote => ⟨.ok (), [⟨loss, quote, span⟩]⟩
  | .error f => ofExcept (.error f)

/-- One step and then the next, which is not taken if the first fails. -/
def bind (r : Recorded α) (f : α → Recorded β) : Recorded β :=
  match r.result with
  | .ok a => ⟨(f a).result, r.lost ++ (f a).lost⟩
  | .error e => ⟨.error e, r.lost⟩

instance : Monad Recorded where
  pure a := ofExcept (.ok a)
  bind := bind

end Recorded

end Recast
