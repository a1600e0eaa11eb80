import Recast.Lowering.Recorded
import Recast.Syntax.Expr
import Recast.Target.Expr

/-!
# Lowering expressions

`Expr.lower` gives the C++ form of an expression and records the degradations
that it took, in the order in which they arise: operands from left to right,
and what is inside a call before the call itself. It depends on nothing but the
expression and the source that its spans cut.
-/

namespace Recast

/-- The calls that have a C++ counterpart: both make a message of their first
argument. -/
inductive Idiom where
  | errorsNew
  | fmtErrorf
  deriving Repr, DecidableEq, Inhabited

namespace Expr

/-- The idiom that a callee names. -/
def idiom? (callee : Expr) : Option Idiom :=
  match callee.qualified? with
  | some ("errors", "New") => some .errorsNew
  | some ("fmt", "Errorf") => some .fmtErrorf
  | _ => none

/-- A call without a counterpart. -/
def placeholder (src : Source) (span : Span) : Recorded Target.Expr := do
  .degrade src .unrecognizedCall span
  return .placeholder

/-- Leaves out `count` arguments of a call. -/
def dropped (src : Source) (span : Span) : (count : Nat) → Recorded Unit
  | 0 => return ()
  | count + 1 => .degrade src (.droppedArguments (count + 1)) span

mutual

/-- The C++ form of an expression. -/
def lower (src : Source) : Expr → Recorded Target.Expr
  | .literal t _ => return .literal t
  | .name x => return .name x.name
  | .binary op l r span =>
    if op.isBinary then do
      let l' ← l.lower src
      let r' ← r.lower src
      return .binary op l' r'
    else .ofExcept (.error (src.reject (.unsupportedOperator op) span))
  | .unary op x span =>
    if op.isUnary then do
      let x' ← x.lower src
      return .unary op x'
    else .ofExcept (.error (src.reject (.unsupportedOperator op) span))
  | .paren x _ => do
    let x' ← x.lower src
    return .paren x'
  | .call callee args span =>
    if callee.idiom?.isSome then lowerMessage src span args else placeholder src span
  | .selector _ _ span | .unsupported span =>
    .ofExcept (.error (src.reject .unsupportedExpression span))
termination_by structural e => e

/-- The message made by a call at a span: its first argument is kept. -/
def lowerMessage (src : Source) (span : Span) : List Expr → Recorded Target.Expr
  | [] => .ofExcept (.error (src.reject .malformedCall span))
  | first :: rest => do
    let x ← first.lower src
    dropped src span rest.length
    return .message x
termination_by structural args => args

end

end Expr

end Recast
