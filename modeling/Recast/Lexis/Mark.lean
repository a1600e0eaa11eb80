import Recast.Syntax.Operator

/-!
# Marks

The lexemes that are neither words nor literals. The longest mark is read,
except that `++`, `--`, `<-`, `&&` and `&^` are always read as two marks: where
an operand may begin each half is a prefix operator of its own, so the reader
of expressions joins them where they stand as one. The character NUL is a mark:
it ends a phrase as a semicolon does, and no statement begins with it.
-/

namespace Recast

/-- A kind of bracket. -/
inductive Bracket where
  | paren
  | square
  | brace
  deriving Repr, DecidableEq, Inhabited

/-- A lexeme that is neither a word nor a literal. -/
inductive Mark where
  | operator (op : Operator)
  | comma | semicolon | colon | dot | ellipsis | tilde | null
  | opening (b : Bracket)
  | closing (b : Bracket)
  deriving Repr, DecidableEq, Inhabited

namespace Mark

/-- The mark that begins with a character, and how many characters more it
takes from those that follow. -/
def read? (c : Char) (cs : List Char) : Option (Mark × Nat) :=
  let op (o : Operator) (more : Nat) : Option (Mark × Nat) := some (.operator o, more)
  match c, cs with
  | '+', '=' :: _ => op .addAssign 1
  | '+', _ => op .add 0
  | '-', '=' :: _ => op .subAssign 1
  | '-', _ => op .sub 0
  | '*', '=' :: _ => op .mulAssign 1
  | '*', _ => op .mul 0
  | '/', '=' :: _ => op .quoAssign 1
  | '/', _ => op .quo 0
  | '%', '=' :: _ => op .remAssign 1
  | '%', _ => op .rem 0
  | '&', '^' :: '=' :: _ => op .andNotAssign 2
  | '&', '=' :: _ => op .andAssign 1
  | '&', _ => op .and 0
  | '|', '|' :: _ => op .logicalOr 1
  | '|', '=' :: _ => op .orAssign 1
  | '|', _ => op .or 0
  | '^', '=' :: _ => op .xorAssign 1
  | '^', _ => op .xor 0
  | '<', '<' :: '=' :: _ => op .shlAssign 2
  | '<', '<' :: _ => op .shl 1
  | '<', '=' :: _ => op .lessEqual 1
  | '<', _ => op .less 0
  | '>', '>' :: '=' :: _ => op .shrAssign 2
  | '>', '>' :: _ => op .shr 1
  | '>', '=' :: _ => op .greaterEqual 1
  | '>', _ => op .greater 0
  | '=', '=' :: _ => op .equal 1
  | '=', _ => op .assign 0
  | '!', '=' :: _ => op .notEqual 1
  | '!', _ => op .not 0
  | ':', '=' :: _ => op .define 1
  | ':', _ => some (.colon, 0)
  | '.', '.' :: '.' :: _ => some (.ellipsis, 2)
  | '.', _ => some (.dot, 0)
  | ',', _ => some (.comma, 0)
  | ';', _ => some (.semicolon, 0)
  | '~', _ => some (.tilde, 0)
  | '\x00', _ => some (.null, 0)
  | '(', _ => some (.opening .paren, 0)
  | '[', _ => some (.opening .square, 0)
  | '{', _ => some (.opening .brace, 0)
  | ')', _ => some (.closing .paren, 0)
  | ']', _ => some (.closing .square, 0)
  | '}', _ => some (.closing .brace, 0)
  | _, _ => none

end Mark

end Recast
