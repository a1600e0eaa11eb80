import Recast.Lexis.Forest
import Recast.Syntax.File

/-!
# Reading one level of brackets

A phrase is read from a forest, at one level of brackets. What stands inside a
group on the way is read by an `Interior`, a reader for each kind of content,
each of which takes the whole of what it is given. So the readers of phrases
refer to no reader of a deeper level, and the knot is tied once, on the depth of
the brackets.

What may follow a phrase depends on where it stands, which is a `Place`: a line
break or an opening brace may end it or may not.
-/

namespace Recast

/-- What ends a phrase, besides what cannot go on with it. -/
structure Place where
  /-- A line break ends a complete phrase. -/
  line : Bool
  /-- An opening brace after a name begins a body, and no composite literal. -/
  body : Bool
  /-- `++`, `--` and `<-` after an expression belong to the statement. -/
  step : Bool
  deriving Repr, DecidableEq, Inhabited

namespace Place

/-- Inside brackets, where nothing but their end ends a phrase. -/
def inside : Place := ⟨false, false, false⟩

/-- In a list of statements. -/
def listed : Place := ⟨true, false, false⟩

/-- In a header, before its body. -/
def header : Place := ⟨false, true, false⟩

/-- At the head of a simple statement. -/
def stepping (p : Place) : Place := { p with step := true }

end Place

/-- Readers for what stands inside a group. Those that answer with a truth value
only tell whether the content is well formed. -/
structure Interior where
  expr : Forest → Option Expr
  /-- An index or the bounds of a slice. -/
  index : Forest → Bool
  /-- The arguments of a call. -/
  args : Forest → Option (List Expr)
  /-- The arguments of `new` and `make`: a type first. -/
  typedArgs : Forest → Option (List Expr)
  type : Forest → Option TypeExpr
  /-- One type with type arguments. -/
  instantiated : Forest → Bool
  types : Forest → Bool
  /-- One or more type arguments, each a union of types. -/
  typeArgs : Forest → Bool
  params : Forest → Option (List Field)
  typeParams : Forest → Bool
  fields : Forest → Bool
  elements : Forest → Bool
  /-- The elements of a composite literal. -/
  literal : Forest → Bool
  block : Forest → Option (List Stmt)
  valueCases : Forest → Bool
  typeCases : Forest → Bool
  commCases : Forest → Bool
  /-- The specifications of a grouped `var` or `const`; the gap is the one before
  the closing bracket, as the last of them needs an end. -/
  valueSpecs : DeclKind → Forest → Gap → Option (List ValueSpec)
  typeSpecs : Forest → Gap → Bool
  importSpecs : Forest → Bool

namespace Interior

def none : Interior where
  expr _ := .none
  index _ := false
  args _ := .none
  typedArgs _ := .none
  type _ := .none
  instantiated _ := false
  types _ := false
  typeArgs _ := false
  params _ := .none
  typeParams _ := false
  fields _ := false
  elements _ := false
  literal _ := false
  block _ := .none
  valueCases _ := false
  typeCases _ := false
  commCases _ := false
  valueSpecs _ _ _ := .none
  typeSpecs _ _ := false
  importSpecs _ := false

end Interior

/-! ## Looking at trees -/

namespace Tree

def word? : Tree → Option String
  | .leaf ⟨.word w, _, _⟩ => some w
  | _ => none

/-- The name and the place of a tree that is a word. -/
def ident? : Tree → Option Ident
  | .leaf ⟨.word w, _, s⟩ => some ⟨w, s⟩
  | _ => none

def isWord (w : String) (t : Tree) : Bool := t.word? == some w

def isMark (m : Mark) : Tree → Bool
  | .leaf ⟨.mark m', _, _⟩ => m == m'
  | _ => false

def isOperator (op : Operator) (t : Tree) : Bool := t.isMark (.operator op)

/-- A mark that ends a phrase as a line break does. -/
def isTerminator (t : Tree) : Bool := t.isMark .semicolon || t.isMark .null

def operator? : Tree → Option Operator
  | .leaf ⟨.mark (.operator op), _, _⟩ => some op
  | _ => none

/-- The tree stands directly after the one before it. -/
def touches (t : Tree) : Bool := t.gap == .none

def onNewLine (t : Tree) : Bool := t.gap == .line

def isString : Tree → Bool
  | .leaf ⟨.literal .string _, _, _⟩ => true
  | _ => false

end Tree

namespace Forest

/-- A complete phrase at a place ends here. -/
def ends (line : Bool) : Forest → Bool
  | [] => true
  | t :: _ => line && t.onNewLine

/-- The forest begins with two operators that touch. -/
def pair? : Forest → Option (Operator × Operator)
  | s :: t :: _ =>
    match s.operator?, t.operator? with
    | some a, some b => if t.touches then some (a, b) else none
    | _, _ => none
  | _ => none

/-- The end of the trees that were read: those of `ts` that are not in `rest`. -/
def used (ts rest : Forest) : Forest := ts.take (ts.length - rest.length)

/-- The span of the trees that were read, from the first to the last. -/
def spanOf (ts rest : Forest) : Span :=
  match used ts rest with
  | [] => .none
  | t :: us => t.span.through ((t :: us).getLastD t).span

/-- The parts of a forest between its marks of one kind. -/
def splitOn (m : Mark) : Forest → List Forest
  | [] => [[]]
  | t :: ts =>
    if t.isMark m then [] :: splitOn m ts
    else
      match splitOn m ts with
      | part :: parts => (t :: part) :: parts
      | [] => [[t]]

/-- The members of a list with commas between them, and perhaps one after the
last. An empty forest is an empty list. -/
def members (ts : Forest) : List Forest :=
  match splitOn .comma ts with
  | [[]] => []
  | parts =>
    match parts.getLast? with
    | some [] => parts.dropLast
    | _ => parts

/-- One member and no more, and no `...` after it: the shape of the operand of a
conversion. -/
def isSingle (ts : Forest) : Bool :=
  match members ts with
  | [part] => !part.getLast?.any (Tree.isMark .ellipsis)
  | _ => false

/-- What follows the end of a phrase: a line break, which takes no tree, or a
terminator on the same line. -/
def skipEnd? : Forest → Option Forest
  | [] => none
  | t :: ts =>
    if t.onNewLine then some (t :: ts)
    else if t.isTerminator then some ts
    else none

end Forest

/-! ## Sequences of phrases -/

/-- A reader of a phrase: what it found, and the trees after it. -/
abbrev Reader (α : Type) := Forest → Option (α × Forest)

namespace Reader

variable {α : Type}

/-- What is read from a forest, if nothing is left of it. -/
def whole (read : Reader α) (ts : Forest) : Option α :=
  match read ts with
  | some (a, []) => some a
  | _ => none

/-- One phrase or more with separators between them. -/
def separated (line : Bool) (separator : Mark) (read : Reader α) (ts : Forest) :
    Option (List α × Forest) :=
  match read ts with
  | none => none
  | some (a, []) => some ([a], [])
  | some (a, t :: rest) =>
    if t.isMark separator && !(line && t.onNewLine) then
      if rest.length < ts.length then
        (separated line separator read rest).map fun (as, rest) => (a :: as, rest)
      else none
    else some ([a], t :: rest)
termination_by ts.length

/-- Phrases each of which is ended by a line break or a terminator, the last one
by the end of the forest or by a tree that `stop` names as well. Fails where a
phrase cannot be read or is not ended. -/
def lines (stop : Tree → Bool) (read : Reader α) (ts : Forest) :
    Except Forest (List α × Forest) :=
  if ts.head?.all stop then .ok ([], ts)
  else
    match read ts with
    | none => .error ts
    | some (a, []) => .ok ([a], [])
    | some (a, t :: rest) =>
      match Forest.skipEnd? (t :: rest) with
      | some next =>
        if next.length < ts.length then
          (lines stop read next).map fun (as, rest) => (a :: as, rest)
        else .error ts
      | none => if stop t then .ok ([a], t :: rest) else .error (t :: rest)
termination_by ts.length

/-- The phrases of a whole forest, each ended as in `lines`. -/
def allLines (read : Reader α) (ts : Forest) : Option (List α) :=
  match lines (fun _ => false) read ts with
  | .ok (as, []) => some as
  | _ => none

end Reader

/-- The last phrase before a closing bracket has an end of its own: a terminator,
or the line break before the bracket. -/
def Forest.isTerminated (ts : Forest) (closing : Gap) : Bool :=
  closing == .line || ts.getLast?.all Tree.isTerminator

end Recast
