import Recast.Syntax.Operator

/-!
# C++ expressions

The expressions that lowering writes, and their text. Operands are printed as
they stand: no parentheses are added, so grouping rests on those of the source.
-/

namespace Recast.Target

/-- A C++ expression. `message x` is the string made of `x`; `placeholder`
stands for a call that has no counterpart. -/
inductive Expr where
  | literal (text : String)
  | name (name : String)
  | binary (op : Operator) (lhs rhs : Expr)
  | unary (op : Operator) (operand : Expr)
  | paren (inner : Expr)
  | message (inner : Expr)
  | placeholder
  deriving Repr, DecidableEq, Inhabited

namespace Expr

def text : Expr → String
  | .literal t => t
  | .name n => n
  | .binary op l r => l.text ++ " " ++ op.text ++ " " ++ r.text
  | .unary op x => op.text ++ x.text
  | .paren x => "(" ++ x.text ++ ")"
  | .message x => "QString(" ++ x.text ++ ")"
  | .placeholder => "unsupported"

end Expr

end Recast.Target
