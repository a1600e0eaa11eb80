import Recast.Lowering.Expr
import Recast.Primitive
import Recast.Scope

/-!
# The progress of a lowering

Lowering statements changes the scope and records degradations. A failure keeps
the progress made before it: the names declared up to that point stay declared,
and what was lost stays on record.
-/

namespace Recast

/-- The current scope, and what was lost so far. -/
structure Progress where
  scope : Scope
  lost : List Degradation
  deriving Repr, Inhabited

/-- A step of lowering: it may fail, and it keeps its progress either way. -/
abbrev Lowering := ExceptT Fault (StateM Progress)

namespace Lowering

/-- Runs a step from a given progress. -/
def runFrom {α : Type} (step : Lowering α) (p : Progress) : Except Fault α × Progress := step p

/-- A step that leaves the scope alone. -/
def lift {α : Type} (r : Except Fault α) : Lowering α := fun p => (r, p)

/-- The C++ form of an expression. What was lost is added, also if it fails. -/
def expr (src : Source) (e : Expr) : Lowering Target.Expr := fun p =>
  let r := e.lower src
  (r.result, { p with lost := p.lost ++ r.lost })

/-- Fails with the rejection of the construction at a span. -/
def reject {α : Type} (src : Source) (cause : String → Cause) (span : Span) : Lowering α :=
  lift (.error (src.reject cause span))

/-- Declares a name in the current scope; a second time it is a duplicate. -/
def declare (x : Ident) : Lowering Unit := fun p =>
  match p.scope.declare? x with
  | some scope => (.ok (), { p with scope })
  | none => (.error (.rejected ⟨.duplicateDeclaration x.name, x.span⟩), p)

/-- The current scope. -/
def scope : Lowering Scope := fun p => (.ok p.scope, p)

/-- Runs a step at a level of its own, and goes back to the current level after
it, whether it failed or not. -/
def inChild {α : Type} (step : Lowering α) : Lowering α := fun p =>
  let (r, q) := step { p with scope := p.scope.child }
  (r, { q with scope := p.scope })

end Lowering

/-- The C++ type that a type expression stands for. -/
def TypeExpr.lower (src : Source) : TypeExpr → Except Fault Primitive
  | .named x =>
    match Primitive.ofName? x.name with
    | some t => .ok t
    | none => .error (.rejected ⟨.unknownPrimitiveType x.name, x.span⟩)
  | .unsupported span => .error (src.reject .unsupportedTypeShape span)

end Recast
