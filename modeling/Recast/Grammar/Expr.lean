import Recast.Grammar.Type

/-!
# Reading expressions

An expression is a chain of operands with binary operators between them. An
operand is a primary phrase with prefix operators before it and selectors,
indices, calls and literal bodies after it, which bind more tightly than any
binary operator. `Expr.extend` puts the next operand of a chain in its place
in the tree.

Conversions, composite literals, indices, slices, type assertions and function
literals are recognised, and kept as `Expr.unsupported`.
-/

namespace Recast

/-! ## Operators -/

namespace Operator

/-- The operators that may stand before an operand, `<-` apart. -/
def isPrefix : Operator → Bool
  | .add | .sub | .not | .xor | .mul | .and => true
  | _ => false

end Operator

/-- The binary operator at the head of a forest. The marks that make `++`, `--`
or `<-` end the expression where a statement may go on with these. -/
def readBinary (p : Place) : Forest → Option (Operator × Forest)
  | [] => none
  | t :: ts =>
    if p.line && t.onNewLine then none
    else
      match t.operator? with
      | none => none
      | some op =>
        let pair := Forest.pair? (t :: ts)
        if pair = some (.and, .xor) then some (.andNot, ts.tail)
        else if pair = some (.and, .and) then some (.logicalAnd, ts.tail)
        else if p.step
            && (pair = some (.add, .add) || pair = some (.sub, .sub) || pair = some (.less, .sub))
        then none
        else if op.precedence?.isSome then some (op, ts)
        else none

namespace Expr

/-- A chain of operands, `e`, goes on with an operator and an operand. The
operator takes the last operand of `e` from an operator that binds less. -/
def extend (e : Expr) (op : Operator) (u : Expr) : Expr :=
  match e with
  | .binary op' l r span =>
    if op'.precedence?.getD 0 < op.precedence?.getD 0 then
      .binary op' l (r.extend op u) (span.through u.span)
    else .binary op (.binary op' l r span) u (span.through u.span)
  | e => .binary op e u (e.span.through u.span)

/-- The predeclared words that are operands and never name a type. -/
def isOperandWord (w : String) : Bool :=
  ["nil", "true", "false", "iota", "new", "make"].contains w

/-- A name, or a name in a package, which may also be a type. -/
def isTypeName : Expr → Bool
  | .name x | .selector (.name x) _ _ => !isOperandWord x.name
  | _ => false

/-! ## Operands -/

/-- What follows a type at the head of an operand: the body of a function or
composite literal, the operand of a conversion, or type arguments. -/
def afterType (I : Interior) (isFunc hasElements : Bool) (start : Span) (ts : Forest) :
    Option (Expr × Forest) :=
  match ts with
  | .group .brace _ inner _ span :: rest =>
    if (isFunc && (I.block inner).isSome) || (hasElements && I.literal inner) then
      some (.unsupported (start.through span), rest)
    else none
  | .group .paren _ inner _ span :: rest =>
    if Forest.isSingle inner && (I.args inner).isSome then
      some (.unsupported (start.through span), rest)
    else none
  | .group .square _ inner _ span :: rest =>
    if I.types inner then some (.unsupported (start.through span), rest) else none
  | _ => none

/-- An operand that begins with a type. -/
def readTyped (I : Interior) (ts : Forest) : Option (Expr × Forest) := do
  let first ← ts.head?
  let hasElements := first.isWord "map" || first.isWord "struct" ||
    match first with
    | .group .square .. => true
    | _ => false
  let (type, rest) ← TypeExpr.read I false ts
  afterType I (first.isWord "func") hasElements type.span rest

/-- An array literal that counts its elements, `[...]T{...}`. -/
def readCounted (I : Interior) (start : Span) (ts : Forest) : Option (Expr × Forest) := do
  let (_, rest) ← TypeExpr.read I false ts
  match rest with
  | .group .brace _ inner _ span :: rest' =>
    if I.literal inner then some (.unsupported (start.through span), rest') else none
  | _ => none

/-- A literal, a name, or an expression or a type in brackets, at the head of a
forest. -/
def readPrimary (I : Interior) (p : Place) : Forest → Option (Expr × Forest)
  | [] => none
  | t :: ts =>
    match t with
    | .leaf ⟨.literal _ text, _, span⟩ => some (.literal text span, ts)
    | .leaf ⟨.mark .tilde, _, _⟩ => readTyped I (t :: ts)
    | .leaf ⟨.mark _, _, _⟩ => none
    | .leaf ⟨.word w, _, span⟩ =>
      if isTypeWord w then readTyped I (t :: ts)
      else
        match ts with
        | .group .paren gap inner _ s :: rest =>
          if (w == "new" || w == "make") && !(p.line && gap == .line) then
            (I.typedArgs inner).map fun args =>
              (.call (.name ⟨w, span⟩) args (span.through s), rest)
          else some (.name ⟨w, span⟩, ts)
        | _ => some (.name ⟨w, span⟩, ts)
    | .group .paren _ inner _ span =>
      match I.expr inner with
      | some e =>
        match ts with
        | .group .paren gap args _ _ :: _ =>
          if !(p.line && gap == .line) && Forest.isSingle args && I.instantiated inner then
            afterType I false false span ts
          else some (.paren e span, ts)
        | _ => some (.paren e span, ts)
      | none => if (I.type inner).isSome then afterType I false false span ts else none
    | .group .square _ inner _ span =>
      match inner with
      | [dots] => if dots.isMark .ellipsis then readCounted I span ts else readTyped I (t :: ts)
      | _ => readTyped I (t :: ts)
    | .group .brace .. => none

/-- What an expression and type arguments make with the group after them: a
conversion, a call, in which the type arguments are left out, or a composite
literal. The outer `none` says that the arguments make nothing with `next`, so
that they can only be an index. -/
def withTypeArgs (I : Interior) (p : Place) (e : Expr) (typeArgs : Forest) (next : Tree) :
    Option (Option Expr) :=
  if p.line && next.onNewLine then none
  else
    match next with
    | .group .paren _ args _ span =>
      if I.typeArgs typeArgs then
        some ((I.args args).map fun es =>
          if e.isTypeName && Forest.isSingle args then .unsupported (e.span.through span)
          else .call e es (e.span.through span))
      else none
    | .group .brace _ inner _ span =>
      if !p.body && e.isTypeName && I.typeArgs typeArgs then
        some (if I.literal inner then some (.unsupported (e.span.through span)) else none)
      else none
    | _ => none

/-- What may follow an operand and still belong to it. -/
def readPostfix (I : Interior) (p : Place) (e : Expr) : Forest → Option (Expr × Forest)
  | [] => some (e, [])
  | t :: ts =>
    if p.line && t.onNewLine then some (e, t :: ts)
    else
      match t with
      | .leaf ⟨.mark .dot, _, _⟩ =>
        match ts with
        | .leaf ⟨.word w, _, span⟩ :: rest =>
          readPostfix I p (.selector e ⟨w, span⟩ (e.span.through span)) rest
        | .group .paren _ inner _ span :: rest =>
          if (I.type inner).isSome then readPostfix I p (.unsupported (e.span.through span)) rest
          else none
        | _ => none
      | .leaf _ => some (e, t :: ts)
      | .group .paren _ inner _ span =>
        match I.args inner with
        | some args => readPostfix I p (.call e args (e.span.through span)) ts
        | none => none
      | .group .brace _ inner _ span =>
        if p.body || !e.isTypeName then some (e, t :: ts)
        else if I.literal inner then readPostfix I p (.unsupported (e.span.through span)) ts
        else none
      | .group .square _ inner _ span =>
        let index : Option Expr :=
          if I.index inner || (e.isTypeName && I.types inner) then
            some (.unsupported (e.span.through span))
          else none
        match ts with
        | [] => index.map fun e => (e, [])
        | next :: rest =>
          match withTypeArgs I p e inner next with
          | some none => none
          | some (some e') => readPostfix I p e' rest
          | none =>
            match index with
            | some e' => readPostfix I p e' (next :: rest)
            | none => none

/-- An operand with its prefix operators. `<-chan T` begins a type. -/
def readOperand (I : Interior) (p : Place) : Forest → Option (Expr × Forest)
  | [] => none
  | t :: ts =>
    let primary := (readPrimary I p (t :: ts)).bind fun (e, rest) => readPostfix I p e rest
    match t.operator? with
    | none => primary
    | some .less =>
      match ts with
      | dash :: rest =>
        if !(dash.isOperator .sub && dash.touches) then none
        else if rest.head?.any (Tree.isWord "chan") then
          (readTyped I (t :: dash :: rest)).bind fun (e, rest) => readPostfix I p e rest
        else
          (readOperand I p rest).map fun (e, rest) =>
            (.unary .arrow e (t.span.through e.span), rest)
      | [] => none
    | some op =>
      if op.isPrefix then
        (readOperand I p ts).map fun (e, rest) => (.unary op e (t.span.through e.span), rest)
      else none

/-! ## Chains and lists -/

/-- The rest of a chain whose operands so far make `e`. -/
def readChain (I : Interior) (p : Place) (e : Expr) (ts : Forest) : Option (Expr × Forest) :=
  match readBinary p ts with
  | none => some (e, ts)
  | some (op, rest) =>
    match readOperand I p rest with
    | none => none
    | some (u, rest) =>
      if rest.length < ts.length then readChain I p (e.extend op u) rest else none
termination_by ts.length

def read (I : Interior) (p : Place) : Reader Expr := fun ts =>
  (readOperand I p ts).bind fun (e, rest) => readChain I p e rest

/-- Expressions with commas between them. Only the first of them can be the
operand of a step. -/
def readList (I : Interior) (p : Place) : Reader (List Expr) := fun ts => do
  let (e, rest) ← read I p ts
  match rest with
  | comma :: rest' =>
    if comma.isMark .comma && !(p.line && comma.onNewLine) then
      let (es, rest) ← Reader.separated p.line .comma (read I { p with step := false }) rest'
      return (e :: es, rest)
    else return ([e], rest)
  | [] => return ([e], [])

/-! ## Contents of brackets -/

def readWhole (I : Interior) (ts : Forest) : Option Expr := Reader.whole (read I .inside) ts

/-- An argument; one with `...` is kept as unsupported. -/
def readArg (I : Interior) (ts : Forest) : Option Expr :=
  match read I .inside ts with
  | some (e, []) => some e
  | some (e, [dots]) =>
    if dots.isMark .ellipsis then some (.unsupported (e.span.through dots.span)) else none
  | _ => none

def readArgs (I : Interior) (ts : Forest) : Option (List Expr) := ts.members.mapM (readArg I)

/-- A type and then expressions. -/
def readTypedArgs (I : Interior) (ts : Forest) : Option (List Expr) :=
  match ts.members with
  | [] => some []
  | part :: parts => do
    let type ← Reader.whole (TypeExpr.read I false) part
    let args ← parts.mapM (readWhole I)
    return .unsupported type.span :: args

/-- An index, or two or three bounds with `:`. A third bound needs the second. -/
def readIndex (I : Interior) (ts : Forest) : Bool :=
  let isExpr (part : Forest) := (readWhole I part).isSome
  match ts.splitOn .colon with
  | [part] => isExpr part
  | [low, high] => (low.isEmpty || isExpr low) && (high.isEmpty || isExpr high)
  | [low, high, most] => (low.isEmpty || isExpr low) && isExpr high && isExpr most
  | _ => false

/-- An element of a composite literal: an expression or a literal body. -/
def readElement (I : Interior) : Forest → Bool
  | [.group .brace _ inner _ _] => I.literal inner
  | ts => (readWhole I ts).isSome

/-- The elements of a composite literal, each perhaps with a key. -/
def readElements (I : Interior) (ts : Forest) : Bool :=
  match ts.members with
  | [[]] => true
  | parts => parts.all fun part =>
    match part.splitOn .colon with
    | [value] => readElement I value
    | [key, value] => readElement I key && readElement I value
    | _ => false

end Expr

end Recast
