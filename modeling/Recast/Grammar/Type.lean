import Recast.Grammar.Interior

/-!
# Reading types

A type is a name, or a shape that is known by its span alone. Parameter and
result lists are read here too: a list of bare words before a typed name shares
its type, as in `a, b T`, and stands for unnamed types otherwise.
-/

namespace Recast

/-- The words that begin a type and are no name of one. -/
def isTypeWord (w : String) : Bool :=
  ["func", "map", "chan", "struct", "interface"].contains w

/-- A tree with which the result type of a function may begin, other than a
list in parentheses. -/
def Tree.beginsResult : Tree → Bool
  | .group .square .. => true
  | .group .. => false
  | t => t.word?.isSome || t.isOperator .mul || t.isOperator .less || t.isMark .tilde

namespace TypeExpr

/-- The name of a type at the head of a forest, with its package and its type
arguments if it has them. -/
def readName (I : Interior) (line : Bool) (x : Ident) (ts : Forest) : TypeExpr × Forest :=
  let (name, rest) : TypeExpr × Forest :=
    match ts with
    | dot :: t :: rest =>
      match t.ident? with
      | some member =>
        if dot.isMark .dot && !(line && dot.onNewLine) then
          (.unsupported (x.span.through member.span), rest)
        else (.named x, ts)
      | none => (.named x, ts)
    | _ => (.named x, ts)
  match rest with
  | .group .square gap inner _ span :: after =>
    if !(line && gap == .line) && I.typeArgs inner then
      (.unsupported (x.span.through span), after)
    else (name, rest)
  | _ => (name, rest)

def read (I : Interior) (line : Bool) : Reader TypeExpr
  | [] => none
  | t :: ts =>
    let prefixed (r : Option (TypeExpr × Forest)) : Option (TypeExpr × Forest) :=
      r.map fun (type, rest) => (.unsupported (t.span.through type.span), rest)
    match t with
    | .group .paren _ inner _ span =>
      if (I.type inner).isSome then some (.unsupported span, ts) else none
    | .group .square _ inner _ _ =>
      if inner.isEmpty || (I.expr inner).isSome then prefixed (read I line ts) else none
    | .group .brace .. => none
    | .leaf ⟨.mark (.operator .mul), _, _⟩
    | .leaf ⟨.mark .tilde, _, _⟩ => prefixed (read I line ts)
    | .leaf ⟨.mark (.operator .less), _, _⟩ =>
      match ts with
      | dash :: chan :: ts' =>
        if dash.isOperator .sub && dash.touches && chan.isWord "chan" then
          prefixed (read I line ts')
        else none
      | _ => none
    | .leaf ⟨.word w, _, span⟩ =>
      if w == "chan" then
        match ts with
        | less :: dash :: ts' =>
          if less.isOperator .less && dash.isOperator .sub && dash.touches then
            prefixed (read I line ts')
          else prefixed (read I line (less :: dash :: ts'))
        | ts => prefixed (read I line ts)
      else if w == "map" then
        match ts with
        | .group .square _ key _ _ :: ts' =>
          if (I.type key).isSome then prefixed (read I line ts') else none
        | _ => none
      else if w == "struct" then
        match ts with
        | .group .brace _ inner _ s :: ts' =>
          if I.fields inner then some (.unsupported (span.through s), ts') else none
        | _ => none
      else if w == "interface" then
        match ts with
        | .group .brace _ inner _ s :: ts' =>
          if I.elements inner then some (.unsupported (span.through s), ts') else none
        | _ => none
      else if w == "func" then
        match ts with
        | .group .paren _ params _ s :: ts' =>
          if (I.params params).isNone then none
          else
            match ts' with
            | [] => some (.unsupported (span.through s), [])
            | .group .paren gap results close s' :: rest =>
              if line && gap == .line then
                some (.unsupported (span.through s), .group .paren gap results close s' :: rest)
              else if (I.params results).isSome then some (.unsupported (span.through s'), rest)
              else none
            | u :: rest =>
              if u.beginsResult && !(line && u.onNewLine) then prefixed (read I line (u :: rest))
              else some (.unsupported (span.through s), u :: rest)
        | _ => none
      else some (readName I line ⟨w, span⟩ ts)
    | .leaf _ => none

/-- A union of types, `A | B`. -/
def readUnion (I : Interior) (line : Bool) : Reader Unit := fun ts =>
  (Reader.separated line (.operator .or) (read I line) ts).map fun (_, rest) => ((), rest)

end TypeExpr

/-! ## Parameters -/

/-- One member of a parameter list, before bare words are given to the types
that follow them. -/
inductive Param where
  | bare (x : Ident)
  | unnamed (type : TypeExpr)
  | named (x : Ident) (type : TypeExpr)
  | variadic (x : Option Ident) (span : Span)
  deriving Repr, Inhabited

namespace Param

/-- A member of a parameter list. -/
def read? (I : Interior) (ts : Forest) : Option Param :=
  match Reader.whole (TypeExpr.read I false) ts with
  | some (.named x) => some (.bare x)
  | some type => some (.unnamed type)
  | none =>
    match ts with
    | [] => none
    | t :: rest =>
      let x? := t.ident?.filter fun x => !isTypeWord x.name
      if t.isMark .ellipsis then variadic? none t rest
      else
        match x?, rest with
        | some x, u :: rest' =>
          if u.isMark .ellipsis then variadic? (some x) t rest'
          else (Reader.whole (TypeExpr.read I false) rest).map (.named x)
        | _, _ => none
where
  /-- A member with `...`, from its first tree and its type. -/
  variadic? (x : Option Ident) (first : Tree) (type : Forest) : Option Param :=
    (Reader.whole (TypeExpr.read I false) type).map fun type =>
      .variadic x (first.span.through type.span)

/-- The field of a lone type name. -/
def unnamedField (x : Ident) : Field := ⟨[], .named x, x.span⟩

/-- The fields of a parameter list, given the bare words since the last field,
the last one first. -/
def fields : List Ident → List Param → List Field
  | words, [] => words.reverse.map unnamedField
  | words, .bare x :: ps => fields (x :: words) ps
  | words, .named x type :: ps =>
    let names := words.reverse ++ [x]
    ⟨names, type, (names.headD x).span.through type.span⟩ :: fields [] ps
  | words, .unnamed type :: ps =>
    words.reverse.map unnamedField ++ ⟨[], type, type.span⟩ :: fields [] ps
  | words, .variadic x span :: ps =>
    words.reverse.map unnamedField ++ ⟨x.toList, .unsupported span, span⟩ :: fields [] ps

/-- What stands in the parentheses of a parameter or result list. A comma alone
is an empty list. -/
def readAll (I : Interior) (ts : Forest) : Option (List Field) :=
  match ts.members with
  | [[]] => some []
  | parts => (parts.mapM (read? I)).map (fields [])

end Param

/-! ## Other contents of brackets -/

namespace TypeExpr

/-- One type or more, with commas. -/
def readTypes (I : Interior) (ts : Forest) : Bool :=
  !ts.isEmpty && ts.members.all fun part => (Reader.whole (read I false) part).isSome

/-- One type with type arguments, perhaps behind `*` or in parentheses. -/
def readInstantiated (I : Interior) : Forest → Bool
  | [] => false
  | [.group .paren _ inner _ _] => I.instantiated inner
  | t :: ts =>
    if t.isOperator .mul then readInstantiated I ts
    else
      match t.ident?, ts.getLast? with
      | some x, some (.group .square ..) =>
        !isTypeWord x.name && (Reader.whole (read I false) (t :: ts)).isSome
      | _, _ => false

/-- One type argument or more, with commas. -/
def readTypeArgs (I : Interior) (ts : Forest) : Bool :=
  !ts.isEmpty && ts.members.all fun part => (Reader.whole (readUnion I false) part).isSome

/-- A member of a type parameter list: a bare name, or a name with what its type
must satisfy; whether it has the latter. -/
def readTypeParam (I : Interior) (ts : Forest) : Option Bool :=
  match ts with
  | [x] => x.ident?.map fun _ => false
  | x :: rest => do
    let _ ← x.ident?
    let _ ← Reader.whole (readUnion I false) rest
    return true
  | [] => none

/-- Type parameters; the names of each group share the constraint after them. -/
def readTypeParams (I : Interior) (ts : Forest) : Bool :=
  match ts.members.mapM (readTypeParam I) with
  | some constrained => constrained.getLast? == some true
  | none => false

/-- The tag of a field, if it has one. -/
def skipTag (ts : Forest) : Forest :=
  match ts with
  | t :: rest => if t.isString && !t.onNewLine then rest else ts
  | [] => []

/-- The names of a field, up to its type: whether there are several. -/
def readFieldNames : Reader Bool
  | [] => none
  | x :: ts =>
    if x.ident?.isNone then none
    else
      match ts with
      | comma :: ts' =>
        if comma.isMark .comma then (readFieldNames ts').map fun (_, rest) => (true, rest)
        else some (false, comma :: ts')
      | [] => none

/-- An embedded field: a type name, perhaps behind a `*`. -/
def readEmbedded (I : Interior) (ts : Forest) : Option Forest :=
  let ts := match ts with
    | star :: rest => if star.isOperator .mul then rest else ts
    | [] => []
  match ts with
  | t :: rest => t.ident?.map fun x => (readName I true x rest).2
  | [] => none

/-- A field of a structure. A lone name at the end of a line is an embedded
type. -/
def readField (I : Interior) : Reader Unit := fun ts =>
  let named := do
    let (several, rest) ← readFieldNames ts
    guard (several || !rest.ends true)
    let (_, rest) ← read I true rest
    return ((), skipTag rest)
  named <|> (readEmbedded I ts).map fun rest => ((), skipTag rest)

/-- A method or a union of types in an interface. -/
def readElement (I : Interior) : Reader Unit := fun ts =>
  match ts with
  | x :: .group .paren gap params close s :: rest =>
    match x.ident? with
    | some y =>
      if isTypeWord y.name || gap == .line then readUnion I true ts
      else
        let func := Tree.leaf ⟨.word "func", x.gap, x.span⟩
        (read I true (func :: .group .paren gap params close s :: rest)).map fun (_, rest) =>
          ((), rest)
    | none => readUnion I true ts
  | _ => readUnion I true ts

end TypeExpr

end Recast
