import Recast.Syntax.Stmt

/-!
# Functions and files

A file is a list of items. Only function declarations are lowered; every other
item is known by the kind of its construction and its span.
-/

namespace Recast

/-- A group of parameters or results that share a type: `a, b T`, or `T` alone. -/
structure Field where
  names : List Ident
  type : TypeExpr
  span : Span
  deriving Repr, DecidableEq, Inhabited

/-- A parameter or result list. Its span takes in the parentheses. -/
structure FieldList where
  fields : List Field
  span : Span
  deriving Repr, DecidableEq, Inhabited

namespace Field

/-- The number of values that a field stands for: one for each name, and one
for a type without a name. -/
def arity (f : Field) : Nat := max f.names.length 1

end Field

namespace FieldList

def arity (fs : FieldList) : Nat := fs.fields.foldr (fun f n => f.arity + n) 0

end FieldList

/-- A function declaration. Without a body it only announces the function. -/
structure Func where
  name : Ident
  params : FieldList
  results : Option FieldList
  body : Option Block
  span : Span
  deriving DecidableEq, Inhabited

/-- The constructions, other than a function, that may stand at the top of a
file. -/
inductive ItemKind where
  | packageClause | importDecl | methodDecl
  | constDecl | typeDecl | varDecl
  | expression | send | inc | dec | assignment | shortVar
  | return | go | defer | «if» | «for» | exprSwitch | typeSwitch | select
  | labeled | fallthrough | break | continue | goto | block | empty
  deriving Repr, DecidableEq, Inhabited

namespace ItemKind

/-- The grammar's name of a construction. -/
def text : ItemKind → String
  | .packageClause => "package_clause"
  | .importDecl => "import_declaration"
  | .methodDecl => "method_declaration"
  | .constDecl => "const_declaration"
  | .typeDecl => "type_declaration"
  | .varDecl => "var_declaration"
  | .expression => "expression_statement"
  | .send => "send_statement"
  | .inc => "inc_statement"
  | .dec => "dec_statement"
  | .assignment => "assignment_statement"
  | .shortVar => "short_var_declaration"
  | .return => "return_statement"
  | .go => "go_statement"
  | .defer => "defer_statement"
  | .if => "if_statement"
  | .for => "for_statement"
  | .exprSwitch => "expression_switch_statement"
  | .typeSwitch => "type_switch_statement"
  | .select => "select_statement"
  | .labeled => "labeled_statement"
  | .fallthrough => "fallthrough_statement"
  | .break => "break_statement"
  | .continue => "continue_statement"
  | .goto => "goto_statement"
  | .block => "block"
  | .empty => "empty_statement"

end ItemKind

/-- What stands at the top of a file. -/
inductive Item where
  | func (f : Func)
  | other (kind : ItemKind) (span : Span)
  deriving DecidableEq, Inhabited

/-- A source file. Its span runs from the first lexeme or comment to the end of
the text. -/
structure File where
  items : List Item
  span : Span
  deriving DecidableEq, Inhabited

namespace File

def funcs (f : File) : List Func :=
  f.items.filterMap fun
    | .func g => some g
    | .other .. => none

end File

end Recast
