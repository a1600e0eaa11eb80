import Recast.Lowering.Progress
import Recast.Syntax.Stmt
import Recast.Target.Stmt

/-!
# Lowering statements

A simple statement becomes fragments, one for each pair of sides or each name.
`a, b := x, y` binds the names that cannot be seen yet and assigns to the
others; a `var` or `const` binds every name. Values given to `_` are kept for
their effect and given to no name.

A header, with everything below it, is one level; so is a block. The branches of
a conditional share its header, unless a branch brings an initializer.
-/

namespace Recast

/-! ## Simple statements -/

/-- One pair of a plain or compound assignment, the right side before the left. -/
def lowerPair (src : Source) (op : Operator) (lhs rhs : Expr) : Lowering Target.Fragment := do
  let value ← Lowering.expr src rhs
  if op = .assign ∧ (lhs.name?.any Ident.isBlank) then
    return .discard value
  else do
    let target ← Lowering.expr src lhs
    return .assign target op value

/-- A plain or compound assignment, pair by pair. -/
def lowerAssign (src : Source) (op : Operator) :
    List (Expr × Expr) → Lowering (List Target.Fragment)
  | [] => return []
  | (lhs, rhs) :: pairs => do
    let fragment ← lowerPair src op lhs rhs
    let fragments ← lowerAssign src op pairs
    return fragment :: fragments

/-- One binding of `:=`: the value, then what becomes of the name. -/
def lowerBinding (src : Source) (x : Ident) (rhs : Expr) : Lowering Target.Fragment := do
  let value ← Lowering.expr src rhs
  if x.isBlank then return .discard value
  else if (← Lowering.scope).isDeclared x.name then
    return .rebind x.name value
  else do
    Lowering.declare x
    return .bind x.name value

/-- The bindings of `:=`, pair by pair. -/
def lowerBindings (src : Source) : List (Ident × Expr) → Lowering (List Target.Fragment)
  | [] => return []
  | (x, rhs) :: pairs => do
    let fragment ← lowerBinding src x rhs
    let fragments ← lowerBindings src pairs
    return fragment :: fragments

/-- The name that a `:=` without a new name repeats: the first that is not
blank, or the first of all. -/
def repeatedName? (scope : Scope) (names : List Ident) : Option Ident :=
  if names.any fun x => !x.isBlank && !scope.isDeclaredHere x.name then none
  else (names.find? fun x => !x.isBlank) <|> names.head?

/-- `a, b := x, y`. -/
def lowerDefine (src : Source) (lhs rhs : List Expr) (span : Span) :
    Lowering (List Target.Fragment) :=
  match lhs.mapM Expr.name? with
  | none => Lowering.reject src .unsupportedStatement span
  | some names => do
    match repeatedName? (← Lowering.scope) names with
    | some x => throw (.rejected ⟨.duplicateDeclaration x.name, x.span⟩)
    | none => lowerBindings src (names.zip rhs)

/-- One name of a specification, with its value if it has one. -/
def lowerName (src : Source) (kind : DeclKind) (type : Option Primitive) (x : Ident)
    (value : Option Expr) : Lowering (List Target.Fragment) :=
  if x.isBlank then
    match value with
    | some v => do
      let value ← Lowering.expr src v
      return [.discard value]
    | none => return []
  else do
    Lowering.declare x
    let value ← value.mapM (Lowering.expr src)
    return [.declare (kind = .const) type x.name value]

/-- The names of a specification, each with the value in its place. -/
def lowerNames (src : Source) (kind : DeclKind) (type : Option Primitive) :
    List Ident → List Expr → Lowering (List Target.Fragment)
  | [], _ => return []
  | x :: names, values => do
    let fs ← lowerName src kind type x values.head?
    let gs ← lowerNames src kind type names values.tail
    return fs ++ gs

/-- One specification: its type, the match of names and values, its names. -/
def ValueSpec.lower (src : Source) (kind : DeclKind) (spec : ValueSpec) :
    Lowering (List Target.Fragment) := do
  let type ← spec.type.mapM fun t => Lowering.lift (t.lower src)
  if !spec.values.isEmpty && spec.values.length != spec.names.length then
    Lowering.reject src .unsupportedStatement spec.span
  else
    lowerNames src kind type spec.names spec.values

/-- The specifications of a declaration, in order. -/
def lowerSpecs (src : Source) (kind : DeclKind) : List ValueSpec → Lowering (List Target.Fragment)
  | [] => return []
  | spec :: specs => do
    let fs ← spec.lower src kind
    let gs ← lowerSpecs src kind specs
    return fs ++ gs

/-- A statement that may stand in a header: an assignment, a declaration or a
step. -/
def Stmt.lowerSimple (src : Source) : Stmt → Lowering (List Target.Fragment)
  | .assign lhs op rhs span =>
    if lhs.length != rhs.length || !op.isAssignment then
      Lowering.reject src .unsupportedStatement span
    else if op = .define then lowerDefine src lhs rhs span
    else lowerAssign src op (lhs.zip rhs)
  | .decl kind specs _ => lowerSpecs src kind specs
  | .step operand op _ => do
    let x ← Lowering.expr src operand
    return [.step x op]
  | s => Lowering.reject src .unsupportedStatement s.span

/-! ## Statements and blocks -/

mutual

/-- The C++ form of a statement. -/
def Stmt.lower (src : Source) : Stmt → Lowering Target.Stmt
  | .ret results span =>
    match results with
    | [] => return .ret none
    | [value] => do
      let v ← Lowering.expr src value
      return .ret (some v)
    | _ => Lowering.reject src .multipleReturn span
  | .cond init test body other _ => Lowering.inChild do
    let init' ← init.mapM (Stmt.lowerSimple src)
    let test' ← Lowering.expr src test
    let body' ← body.lower src
    let other' ← Stmt.lowerOther src other
    return .cond init' test' body' other'
  | .loop init test post body _ => Lowering.inChild do
    let init' ← init.mapM (Stmt.lowerSimple src)
    let test' ← test.mapM (Lowering.expr src)
    let post' ← post.mapM (Stmt.lowerSimple src)
    let body' ← body.lower src
    return .loop (init'.getD []) test' (post'.getD []) body'
  | .block body => do
    let body' ← body.lower src
    return .block body'
  | .unsupported span => Lowering.reject src .unsupportedStatement span
  | .assign lhs op rhs span => .simple <$> Stmt.lowerSimple src (.assign lhs op rhs span)
  | .decl kind specs span => .simple <$> Stmt.lowerSimple src (.decl kind specs span)
  | .step operand op span => .simple <$> Stmt.lowerSimple src (.step operand op span)
termination_by structural s => s

/-- The other branch of a conditional, under the header that is open. -/
def Stmt.lowerOther (src : Source) : Option Stmt → Lowering Target.Branch
  | none => return .none
  | some (.block body) => do
    let body' ← body.lower src
    return .block body'
  | some (.cond none test body other _) => do
    let test' ← Lowering.expr src test
    let body' ← body.lower src
    let other' ← Stmt.lowerOther src other
    return .chain test' body' other'
  | some (.cond (some init) test body other _) => Lowering.inChild do
    let init' ← Stmt.lowerSimple src init
    let test' ← Lowering.expr src test
    let body' ← body.lower src
    let other' ← Stmt.lowerOther src other
    return .wrapped init' test' body' other'
  | some s => Lowering.reject src .unsupportedStatement s.span
termination_by structural s => s

def Stmt.lowerList (src : Source) : List Stmt → Lowering (List Target.Stmt)
  | [] => return []
  | s :: ss => do
    let s' ← s.lower src
    let ss' ← Stmt.lowerList src ss
    return s' :: ss'
termination_by structural ss => ss

/-- A block, at a level of its own. -/
def Block.lower (src : Source) : Block → Lowering (List Target.Stmt)
  | .mk stmts _ => Lowering.inChild (Stmt.lowerList src stmts)
termination_by structural b => b

end

/-- A statement that may stand in a header is lowered to the same fragments elsewhere. -/
theorem Stmt.lower_of_isSimple {src : Source} {s : Stmt} (hs : s.isSimple = true) :
    s.lower src = .simple <$> s.lowerSimple src := by
  cases s with
  | assign | decl | step => rw [Stmt.lower]
  | ret | cond | loop | block | unsupported => cases hs

end Recast
