import Recast.Text.Source
import Recast.Syntax.Operator

/-!
# Rejections

Why a construction cannot be lowered. A rejection names its cause and points at
the construction; most causes quote it, so making one cuts the source text, and
a span that does not cut it is a fault of its own, `Fault.unsliced`.
-/

namespace Recast

/-- Why a construction cannot be lowered. -/
inductive Cause where
  | unsupportedExpression (quote : String)
  | unsupportedOperator (op : Operator) (quote : String)
  | unsupportedStatement (quote : String)
  | unsupportedTypeShape (quote : String)
  | unknownPrimitiveType (name : String)
  | malformedCall (quote : String)
  | multipleReturn (quote : String)
  | multipleReturnTypes (quote : String)
  | missingParameterName (quote : String)
  | duplicateDeclaration (name : String)
  deriving Repr, DecidableEq, Inhabited

namespace Cause

/-- The stable code of a kind of cause. -/
def code : Cause → String
  | .unsupportedExpression _ => "E2001"
  | .unsupportedOperator _ _ => "E2002"
  | .unsupportedStatement _ => "E2003"
  | .unsupportedTypeShape _ => "E2004"
  | .unknownPrimitiveType _ => "E2005"
  | .malformedCall _ => "E2006"
  | .multipleReturn _ => "E3001"
  | .multipleReturnTypes _ => "E3002"
  | .missingParameterName _ => "E3003"
  | .duplicateDeclaration _ => "E4001"

def message : Cause → String
  | .unsupportedExpression q => "unsupported expression: " ++ q
  | .unsupportedOperator op q => "unsupported operator `" ++ op.text ++ "` in: " ++ q
  | .unsupportedStatement q => "unsupported statement: " ++ q
  | .unsupportedTypeShape q => "unsupported type: " ++ q
  | .unknownPrimitiveType n => "unknown primitive type: " ++ n
  | .malformedCall q => "wrong call expression: " ++ q
  | .multipleReturn q => "multiple return values are not supported: " ++ q
  | .multipleReturnTypes q => "multiple return types are not supported in C++: " ++ q
  | .missingParameterName q => "parameter has no name: " ++ q
  | .duplicateDeclaration n => "variable already declared: " ++ n

/-- The source text that a cause repeats. -/
def quote : Cause → String
  | .unsupportedExpression q | .unsupportedOperator _ q | .unsupportedStatement q
  | .unsupportedTypeShape q | .malformedCall q | .multipleReturn q | .multipleReturnTypes q
  | .missingParameterName q => q
  | .unknownPrimitiveType n | .duplicateDeclaration n => n

end Cause

/-- A cause and the construction that it is about. -/
structure Rejection where
  cause : Cause
  span : Span
  deriving Repr, DecidableEq, Inhabited

/-- How lowering can fail. -/
inductive Fault where
  | rejected (r : Rejection)
  | unsliced (span : Span) (size : Nat)
  deriving Repr, DecidableEq, Inhabited

namespace Fault

def message : Fault → String
  | .rejected r => r.cause.message
  | .unsliced s size =>
    "span " ++ toString s.start ++ ".." ++ toString s.stop ++ " is not a valid range of the "
      ++ toString size ++ "-byte source buffer"

end Fault

namespace Source

/-- The text of a span; a fault if the span does not cut the source. -/
def quote (s : Source) (span : Span) : Except Fault String :=
  match s.slice? span with
  | some t => .ok t
  | none => .error (.unsliced span s.size)

/-- The rejection of the construction at a span, by a cause that quotes it. -/
def reject (s : Source) (cause : String → Cause) (span : Span) : Fault :=
  match s.slice? span with
  | some t => .rejected ⟨cause t, span⟩
  | none => .unsliced span s.size

end Source

end Recast
