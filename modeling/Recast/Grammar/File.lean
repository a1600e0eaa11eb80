import Recast.Grammar.Stmt

/-!
# Reading files

The items at the top of a file, and the knot: the reader of what stands in
brackets nested at most `n` deep is made of the readers of phrases, given the
reader for one level less. `File.read` reads a source text.
-/

namespace Recast

/-! ## Items -/

/-- A bare result type as a list of one unnamed field. -/
def FieldList.ofType (type : TypeExpr) : FieldList := ⟨[⟨[], type, type.span⟩], type.span⟩

/-- The results of a function, if it has any. -/
def readResults (I : Interior) (ts : Forest) : Option (Option FieldList × Forest) :=
  match ts with
  | [] => some (none, [])
  | .group .paren gap inner closing span :: rest =>
    if gap == .line then some (none, .group .paren gap inner closing span :: rest)
    else (I.params inner).map fun fields => (some ⟨fields, span⟩, rest)
  | t :: rest =>
    if t.beginsResult && !t.onNewLine then
      (TypeExpr.read I true (t :: rest)).map fun (type, rest) => (some (.ofType type), rest)
    else some (none, t :: rest)

/-- The body of a function, if it has one. An opening brace on a line of its own
does not begin it, and no block may follow in its place. -/
def readBody (I : Interior) (ts : Forest) : Option (Option Block × Forest) :=
  match ts with
  | .group .brace gap inner closing span :: rest =>
    if gap == .line then none
    else
      (readBlock I (.group .brace gap inner closing span :: rest)).map fun (b, rest) =>
        (some b, rest)
  | ts => some (none, ts)

def readSignature (I : Interior) (ts : Forest) :
    Option ((FieldList × Option FieldList × Option Block) × Forest) :=
  match ts with
  | .group .paren _ inner _ span :: rest => do
    let fields ← I.params inner
    let (results, rest) ← readResults I rest
    let (body, rest) ← readBody I rest
    return ((⟨fields, span⟩, results, body), rest)
  | _ => none

def readFunc (I : Interior) (ts : Forest) : Option (Func × Forest) :=
  match ts.tail with
  | t :: rest => do
    let name ← t.ident?
    let rest ← match rest with
      | .group .square _ inner _ _ :: rest => if I.typeParams inner then some rest else none
      | rest => some rest
    let ((params, results, body), rest) ← readSignature I rest
    return (⟨name, params, results, body, ts.spanOf rest⟩, rest)
  | [] => none

def readMethod (I : Interior) (ts : Forest) : Option (Item × Forest) :=
  match ts.tail with
  | .group .paren _ receiver _ _ :: name :: rest => do
    let _ ← I.params receiver
    let _ ← name.word?
    let (_, rest) ← readSignature I rest
    return (.other .methodDecl (ts.spanOf rest), rest)
  | _ => none

def readPackage (ts : Forest) : Option (Item × Forest) :=
  match ts.tail with
  | name :: rest =>
    if name.word?.isSome then some (.other .packageClause (ts.spanOf rest), rest) else none
  | [] => none

/-- The item that a statement is. -/
def Phrase.toItem (p : Phrase) : Item := .other p.kind p.stmt.span

def readItem (I : Interior) : Reader Item := fun ts =>
  let stmt := (readStmt I ts).map fun (p, rest) => (p.toItem, rest)
  match ts with
  | [] => none
  | t :: rest =>
    match t.word? with
    | some "package" => readPackage ts
    | some "import" => (readImport I ts).map fun (p, rest) => (p.toItem, rest)
    | some "func" =>
      match rest with
      | .group .paren .. :: name :: .group .paren .. :: _ =>
        if name.word?.any (!isTypeWord ·) then readMethod I ts else stmt
      | .group .paren .. :: _ => stmt
      | _ => (readFunc I ts).map fun (f, rest) => (.func f, rest)
    | _ => stmt

/-! ## The knot -/

namespace Interior

/-- Readers for one level of brackets more than `I` reads. -/
def deepen (I : Interior) : Interior where
  expr := Expr.readWhole I
  index := Expr.readIndex I
  args := Expr.readArgs I
  typedArgs := Expr.readTypedArgs I
  type := Reader.whole (TypeExpr.read I false)
  instantiated := TypeExpr.readInstantiated I
  types := TypeExpr.readTypes I
  typeArgs := TypeExpr.readTypeArgs I
  params := Param.readAll I
  typeParams := TypeExpr.readTypeParams I
  fields ts := (Reader.allLines (TypeExpr.readField I) ts).isSome
  elements ts := (Reader.allLines (TypeExpr.readElement I) ts).isSome
  literal := Expr.readElements I
  block := readStmts I
  valueCases := readCases I (readCaseValues I)
  typeCases := readCases I (readCaseTypes I)
  commCases := readCases I (readComm I)
  valueSpecs := ValueSpec.readGroup I
  typeSpecs := readTypeSpecs I
  importSpecs := readImportSpecs

/-- Readers for what stands in brackets when brackets are nested at most `n`
deep. -/
def ofDepth : Nat → Interior
  | 0 => none
  | n + 1 => deepen (ofDepth n)

end Interior

/-! ## Files -/

/-- Why a source text is no file. -/
inductive SyntaxError where
  | unexpected (text : String) (span : Span)
  | missing (expected : String) (span : Span)
  | noGrammar (text : String)
  | noTree
  | tooLarge (size : Nat)
  deriving Repr, DecidableEq, Inhabited

namespace SyntaxError

def message : SyntaxError → String
  | .unexpected text _ => "syntax error near `" ++ text ++ "`"
  | .missing expected _ => "syntax error: missing `" ++ expected ++ "`"
  | .noGrammar text => "failed to load the Go grammar: " ++ text
  | .noTree => "parser produced no syntax tree"
  | .tooLarge size => "source of " ++ toString size ++ " bytes exceeds the 4 GiB span limit"

/-- The place of the error, if it has one. -/
def span? : SyntaxError → Option Span
  | .unexpected _ s | .missing _ s => some s
  | _ => none

end SyntaxError

namespace File

/-- The items of a forest; where it cannot be read, the trees from there on. -/
def readItems (ts : Forest) : Except Forest (List Item) :=
  (Reader.lines (fun _ => false) (readItem (.ofDepth (Tree.depthList ts))) ts).map Prod.fst

/-- The unexpected text of a span. -/
def unexpected (src : Source) (span : Span) : SyntaxError :=
  .unexpected ((src.slice? span).getD "") span

/-- The file that a source text is. -/
def read (src : Source) : Except SyntaxError File :=
  if src.size ≥ Span.limit then .error (.tooLarge src.size)
  else
    match Piece.ofChars src.chars with
    | .error n =>
      let start := utf8Length (src.chars.take n)
      .error (unexpected src ⟨start, start + ((src.chars[n]?.map Char.utf8Size).getD 0)⟩)
    | .ok pieces =>
      match Forest.ofLexemes (Lexeme.ofPieces 0 .none pieces) with
      | .error span => .error (unexpected src span)
      | .ok ts =>
        match readItems ts with
        | .ok items => .ok ⟨items, ⟨firstOffset 0 pieces, src.size⟩⟩
        | .error rest => .error (unexpected src ((rest.head?.map Tree.span).getD .none))

end File

end Recast
