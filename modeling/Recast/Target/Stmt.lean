import Recast.Primitive
import Recast.Target.Expr

/-!
# C++ statements

The statements that lowering writes, and their text. A simple statement of the
source becomes a list of fragments, one for each name or pair of sides. A
fragment carries no terminator: in a block each is ended by `;`, in the header
of a loop they share one clause.
-/

namespace Recast.Target

/-- One declaration, assignment or step. -/
inductive Fragment where
  /-- `auto n = v`, the first binding of a name. -/
  | bind (name : String) (value : Expr)
  /-- `n = v`, a new value for a name that can be seen. -/
  | rebind (name : String) (value : Expr)
  /-- `(void)(v)`, a value that is given to no name. -/
  | discard (value : Expr)
  | assign (target : Expr) (op : Operator) (value : Expr)
  | declare (constant : Bool) (type : Option Primitive) (name : String) (value : Option Expr)
  | step (operand : Expr) (op : Operator)
  deriving Repr, DecidableEq, Inhabited

namespace Fragment

def text : Fragment → String
  | .bind n v => "auto " ++ n ++ " = " ++ v.text
  | .rebind n v => n ++ " = " ++ v.text
  | .discard v => "(void)(" ++ v.text ++ ")"
  | .assign t op v => t.text ++ " " ++ op.text ++ " " ++ v.text
  | .declare constant type n v =>
    (if constant then "const " else "") ++ (type.elim "auto" Primitive.text) ++ " " ++ n
      ++ v.elim "" (" = " ++ ·.text)
  | .step x op => x.text ++ op.text

def declared? : Fragment → Option String
  | .bind n _ | .declare _ _ n _ => some n
  | _ => none

/-- Fragments in a block, each with its terminator. -/
def lines (fs : List Fragment) : String := String.join (fs.map fun f => f.text ++ ";\n")

/-- Fragments that share a clause. -/
def clause (fs : List Fragment) : String := ", ".intercalate (fs.map text)

end Fragment

mutual

inductive Stmt where
  | ret (value : Option Expr)
  | simple (fragments : List Fragment)
  /-- A conditional; with an initializer, in a block of its own. -/
  | cond (init : Option (List Fragment)) (test : Expr) (body : List Stmt) (other : Branch)
  | loop (init : List Fragment) (test : Option Expr) (post : List Fragment) (body : List Stmt)
  | block (body : List Stmt)

/-- What follows the body of a conditional. -/
inductive Branch where
  | none
  | block (body : List Stmt)
  /-- `else if`, under the same header. -/
  | chain (test : Expr) (body : List Stmt) (other : Branch)
  /-- A conditional with an initializer, in a block of its own inside the `else`. -/
  | wrapped (init : List Fragment) (test : Expr) (body : List Stmt) (other : Branch)

end

instance : Inhabited Stmt := ⟨.ret none⟩
instance : Inhabited Branch := ⟨.none⟩

/-- A clause of a loop header after its separator: set off by a blank unless it
is empty. -/
def pad (clause : String) : String := if clause.isEmpty then "" else " " ++ clause

/-- The brace that opens a block, at the end of its line. -/
def opening : String := "\x7b\n"

def closing : String := "\x7d"

/-- Statements as a block. -/
def braced (body : String) : String := opening ++ body ++ closing

/-- A statement after fragments, in a block of their own. -/
def enclosed (fs : List Fragment) (inner : String) : String :=
  opening ++ Fragment.lines fs ++ inner ++ "\n" ++ closing ++ "\n"

/-- A conditional and what follows its body. -/
def conditional (test : Expr) (body other : String) : String :=
  "if(" ++ test.text ++ ") " ++ braced body ++ other

/-- A loop. The first clause of its header has room for one fragment. -/
def loop (init : String) (test : Option Expr) (post : List Fragment) (body : String) : String :=
  "for(" ++ init ++ ";" ++ pad (test.elim "" Expr.text) ++ ";" ++ pad (Fragment.clause post)
    ++ ") " ++ braced body

mutual

def Stmt.text : Stmt → String
  | .ret none => "return;\n"
  | .ret (some v) => "return " ++ v.text ++ ";\n"
  | .simple fs => Fragment.lines fs
  | .cond none test body other => conditional test (Stmt.listText body) other.text ++ "\n"
  | .cond (some fs) test body other =>
    enclosed fs (conditional test (Stmt.listText body) other.text)
  | .loop [] test post body => loop "" test post (Stmt.listText body) ++ "\n"
  | .loop [f] test post body => loop f.text test post (Stmt.listText body) ++ "\n"
  | .loop fs test post body => enclosed fs (loop "" test post (Stmt.listText body))
  | .block body => braced (Stmt.listText body) ++ "\n"
termination_by structural s => s

def Stmt.listText : List Stmt → String
  | [] => ""
  | s :: ss => s.text ++ Stmt.listText ss
termination_by structural ss => ss

def Branch.text : Branch → String
  | .none => ""
  | .block body => " else " ++ braced (Stmt.listText body)
  | .chain test body other => " else " ++ conditional test (Stmt.listText body) other.text
  | .wrapped fs test body other =>
    " else " ++ opening ++ enclosed fs (conditional test (Stmt.listText body) other.text)
      ++ closing
termination_by structural b => b

end

/-- A C++ function. The result is `void` if it has no type. -/
structure Func where
  result : Option Primitive
  name : String
  params : List (Primitive × String)
  body : List Stmt

namespace Func

def text (f : Func) : String :=
  f.result.elim "void" Primitive.text ++ " " ++ f.name ++ "("
    ++ ", ".intercalate (f.params.map fun (t, n) => t.text ++ " " ++ n) ++ ") "
    ++ braced (Stmt.listText f.body) ++ "\n"

end Func

end Recast.Target
