import Recast.Grammar.Expr

/-!
# Reading declarations

`var`, `const`, `type` and `import` declare one specification or a group of
them in parentheses. In a constant specification the commas between the names
count among the names.
-/

namespace Recast

/-- What a phrase is, for a phrase that is no function, and the statement that
is made of it. -/
structure Phrase where
  kind : ItemKind
  stmt : Stmt
  deriving Inhabited

namespace Phrase

/-- A phrase without a counterpart, from its trees. -/
def opaquely (kind : ItemKind) (ts rest : Forest) : Phrase :=
  ⟨kind, .unsupported (ts.spanOf rest)⟩

end Phrase

/-! ## Variables and constants -/

/-- Names with commas between them, the commas included. A name before a line
break is the last one if a line may end there. -/
def readNames (line : Bool) : Reader (List Ident)
  | [] => none
  | t :: ts =>
    match t.ident? with
    | none => none
    | some x =>
      match ts with
      | comma :: ts' =>
        if comma.isMark .comma && !(line && comma.onNewLine) then
          (readNames line ts').map fun (xs, rest) => (x :: ⟨",", comma.span⟩ :: xs, rest)
        else some ([x], comma :: ts')
      | [] => some ([x], [])

namespace ValueSpec

/-- The values of a specification: `= x, y`. -/
def readValues (I : Interior) : Reader (List Expr)
  | [] => none
  | t :: ts => if t.isOperator .assign then Expr.readList I .listed ts else none

/-- The type, if there is one, and the values of a variable specification; one
of the two is needed. -/
def readVar (I : Interior) (ts : Forest) : Option (Option TypeExpr × List Expr × Forest) :=
  match readValues I ts with
  | some (values, rest) => some (none, values, rest)
  | none => do
    let (type, rest) ← TypeExpr.read I true ts
    if !rest.ends true && rest.head?.any (Tree.isOperator .assign) then
      let (values, rest) ← readValues I rest
      return (some type, values, rest)
    else return (some type, [], rest)

/-- The type and the values of a constant specification; neither is needed, but a
type needs values. -/
def readConst (I : Interior) (ts : Forest) : Option (Option TypeExpr × List Expr × Forest) :=
  if ts.ends true || ts.head?.any Tree.isTerminator then some (none, [], ts)
  else
    match readValues I ts with
    | some (values, rest) => some (none, values, rest)
    | none => do
      let (type, rest) ← TypeExpr.read I false ts
      let (values, rest) ← readValues I rest
      return (some type, values, rest)

def read (I : Interior) (kind : DeclKind) : Reader ValueSpec := fun ts => do
  let (names, rest) ← readNames (kind = .const) ts
  match kind with
  | .var =>
    let (type, values, rest) ← readVar I rest
    return (⟨names.filter (·.name != ","), type, values, ts.spanOf rest⟩, rest)
  | .const =>
    let (type, values, rest) ← readConst I rest
    return (⟨names, type, values, ts.spanOf rest⟩, rest)

def readGroup (I : Interior) (kind : DeclKind) (ts : Forest) (closing : Gap) :
    Option (List ValueSpec) :=
  if ts.isTerminated closing then Reader.allLines (read I kind) ts else none

end ValueSpec

def readValueDecl (I : Interior) (kind : DeclKind) (ts : Forest) : Option (Phrase × Forest) :=
  let phrase (specs : List ValueSpec) (rest : Forest) : Phrase × Forest :=
    (⟨match kind with
      | .var => .varDecl
      | .const => .constDecl, .decl kind specs (ts.spanOf rest)⟩, rest)
  match ts.tail with
  | .group .paren _ inner closing _ :: rest =>
    (I.valueSpecs kind inner closing).map fun specs => phrase specs rest
  | tail => (ValueSpec.read I kind tail).map fun (spec, rest) => phrase [spec] rest

/-! ## Types and imports -/

/-- A type specification, or an alias: a name, perhaps type parameters, a type. -/
def readTypeSpec (I : Interior) : Reader Unit := fun ts =>
  let plain (ts : Forest) : Option (Unit × Forest) :=
    let ts := match ts with
      | eq :: rest => if eq.isOperator .assign then rest else ts
      | [] => []
    (TypeExpr.read I true ts).map fun (_, rest) => ((), rest)
  match ts with
  | x :: rest =>
    if x.ident?.isNone then none
    else
      plain rest <|>
        match rest with
        | .group .square _ params _ _ :: rest' =>
          if I.typeParams params then plain rest' else none
        | _ => none
  | [] => none

def readTypeSpecs (I : Interior) (ts : Forest) (closing : Gap) : Bool :=
  ts.isTerminated closing && (Reader.allLines (readTypeSpec I) ts).isSome

def readTypeDecl (I : Interior) (ts : Forest) : Option (Phrase × Forest) :=
  match ts.tail with
  | .group .paren _ inner closing _ :: rest =>
    if I.typeSpecs inner closing then some (.opaquely .typeDecl ts rest, rest) else none
  | tail => (readTypeSpec I tail).map fun (_, rest) => (.opaquely .typeDecl ts rest, rest)

/-- What is imported: a path, perhaps with a name, `.` or `_` before it. -/
def readImportSpec : Reader Unit
  | [] => none
  | t :: ts =>
    if t.isString then some ((), ts)
    else if t.isMark .dot || t.word?.isSome then
      match ts with
      | path :: rest => if path.isString then some ((), rest) else none
      | [] => none
    else none

def readImportSpecs (ts : Forest) : Bool := (Reader.allLines readImportSpec ts).isSome

def readImport (I : Interior) (ts : Forest) : Option (Phrase × Forest) :=
  match ts.tail with
  | .group .paren _ inner _ _ :: rest =>
    if I.importSpecs inner then some (.opaquely .importDecl ts rest, rest) else none
  | tail => (readImportSpec tail).map fun (_, rest) => (.opaquely .importDecl ts rest, rest)

end Recast
