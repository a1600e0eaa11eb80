/-!
# Operators

The operators and assignment marks of Go, with the classes that the lowering
asks about. `Operator.all` fixes their order, `Operator.text` their spelling,
and `Operator.ofText?` reads exactly these spellings.
-/

namespace Recast

/-- An operator, an assignment mark, or a step. -/
inductive Operator where
  | add | sub | mul | quo | rem
  | and | or | xor | shl | shr | andNot
  | addAssign | subAssign | mulAssign | quoAssign | remAssign
  | andAssign | orAssign | xorAssign | shlAssign | shrAssign | andNotAssign
  | logicalAnd | logicalOr | arrow | inc | dec
  | equal | notEqual | less | lessEqual | greater | greaterEqual
  | assign | define | not
  deriving Repr, DecidableEq, Inhabited

namespace Operator

/-- Every operator, in the order in which they are listed to users. -/
def all : List Operator :=
  [ .add, .sub, .mul, .quo, .rem, .and, .or, .xor, .shl, .shr, .andNot,
    .addAssign, .subAssign, .mulAssign, .quoAssign, .remAssign, .andAssign, .orAssign,
    .xorAssign, .shlAssign, .shrAssign, .andNotAssign, .logicalAnd, .logicalOr, .arrow,
    .inc, .dec, .equal, .notEqual, .less, .lessEqual, .greater, .greaterEqual,
    .assign, .define, .not ]

/-- How an operator is written, in Go and in C++ alike. -/
def text : Operator → String
  | .add => "+" | .sub => "-" | .mul => "*" | .quo => "/" | .rem => "%"
  | .and => "&" | .or => "|" | .xor => "^" | .shl => "<<" | .shr => ">>" | .andNot => "&^"
  | .addAssign => "+=" | .subAssign => "-=" | .mulAssign => "*=" | .quoAssign => "/="
  | .remAssign => "%=" | .andAssign => "&=" | .orAssign => "|=" | .xorAssign => "^="
  | .shlAssign => "<<=" | .shrAssign => ">>=" | .andNotAssign => "&^="
  | .logicalAnd => "&&" | .logicalOr => "||" | .arrow => "<-" | .inc => "++" | .dec => "--"
  | .equal => "==" | .notEqual => "!=" | .less => "<" | .lessEqual => "<="
  | .greater => ">" | .greaterEqual => ">="
  | .assign => "=" | .define => ":=" | .not => "!"

/-- The operator with a given spelling. -/
def ofText? (t : String) : Option Operator := all.find? (·.text == t)

/-- `=`, `:=` and the compound assignments. -/
def isAssignment : Operator → Bool
  | .assign | .define
  | .addAssign | .subAssign | .mulAssign | .quoAssign | .remAssign
  | .andAssign | .orAssign | .xorAssign | .shlAssign | .shrAssign | .andNotAssign => true
  | _ => false

/-- An operator between two operands is passed on as it is, whatever it is. -/
def isBinary (_ : Operator) : Bool := true

/-- The prefix operators that C++ reads as Go does. -/
def isUnary : Operator → Bool
  | .add | .sub | .not => true
  | _ => false

/-- The strength with which a binary operator holds its operands, five being
the strongest; none for a mark that does not stand between operands. -/
def precedence? : Operator → Option Nat
  | .mul | .quo | .rem | .shl | .shr | .and | .andNot => some 5
  | .add | .sub | .or | .xor => some 4
  | .equal | .notEqual | .less | .lessEqual | .greater | .greaterEqual => some 3
  | .logicalAnd => some 2
  | .logicalOr => some 1
  | _ => none

theorem mem_all (op : Operator) : op ∈ all := by cases op <;> decide

theorem text_injective {a b : Operator} (h : a.text = b.text) : a = b := by
  revert h; cases a <;> cases b <;> decide

theorem ofText?_text (op : Operator) : ofText? op.text = some op := by
  cases op <;> decide

end Operator

end Recast
