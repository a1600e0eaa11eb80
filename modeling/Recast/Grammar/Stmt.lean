import Recast.Grammar.Decl

/-!
# Reading statements

A statement is a simple statement, a declaration, or begins with a word of its
own. Conditionals, loops without `range`, blocks, returns, declarations,
assignments and steps become statements of the tree; all others are recognised
and kept as `Stmt.unsupported`. An empty statement is recognised as such and
left out of the block that it stands in.
-/

namespace Recast

/-! ## Simple statements -/

/-- A simple statement: an expression, or a phrase around expressions. -/
inductive Simple where
  | expr (e : Expr)
  | phrase (p : Phrase)

namespace Simple

/-- The phrase of a simple statement. An expression has no effect of its own in
the tree. -/
def toPhrase : Simple → Phrase
  | .expr e => ⟨.expression, .unsupported e.span⟩
  | .phrase p => p

def stmt (s : Simple) : Stmt := s.toPhrase.stmt

/-- What follows the expressions at the head of a simple statement, at a place
that tells what may follow its right side. -/
def readAfter (I : Interior) (q : Place) (ts : Forest) (lhs : List Expr) (rest : Forest) :
    Option (Simple × Forest) :=
  let alone : Option (Simple × Forest) :=
    match lhs with
    | [e] => some (.expr e, rest)
    | _ => none
  let step (kind : ItemKind) (op : Operator) : Option (Simple × Forest) :=
    match lhs with
    | [e] =>
      let rest' := rest.drop 2
      some (.phrase ⟨kind, .step e op (ts.spanOf rest')⟩, rest')
    | _ => none
  if rest.ends q.line then alone
  else
    match rest.pair? with
    | some (.add, .add) => step .inc .inc
    | some (.sub, .sub) => step .dec .dec
    | some (.less, .sub) =>
      if lhs.length = 1 then
        (Expr.read I q (rest.drop 2)).map fun (_, rest') =>
          (.phrase (.opaquely .send ts rest'), rest')
      else none
    | _ =>
      match rest with
      | t :: rhs =>
        match if t.isMark (.operator .define) then some (ItemKind.shortVar, Operator.define)
            else (t.operator?.filter Operator.isAssignment).map fun op => (.assignment, op) with
        | some (kind, op) =>
          (Expr.readList I q rhs).map fun (rhs, rest') =>
            (.phrase ⟨kind, .assign lhs op rhs (ts.spanOf rest')⟩, rest')
        | none => alone
      | [] => alone

/-- A simple statement. Its first expression stands at `p`, its right side at
`q`. -/
def read (I : Interior) (p q : Place) : Reader Simple := fun ts =>
  (Expr.readList I p.stepping ts).bind fun (lhs, rest) => readAfter I q ts lhs rest

end Simple

/-! ## Headers -/

def readBlock (I : Interior) : Reader Block
  | .group .brace _ inner _ span :: rest =>
    (I.block inner).map fun stmts => (.mk stmts span, rest)
  | _ => none

/-- The header of a conditional: an initializer and a test, or a test alone. -/
def readHeader (I : Interior) (ts : Forest) : Option (Option Stmt × Expr × Forest) := do
  let (first, rest) ← Simple.read I .header .inside ts
  match rest with
  | t :: rest' =>
    if t.isMark .semicolon then
      let (test, rest) ← Expr.read I .header rest'
      return (some first.stmt, test, rest)
    else
      match first with
      | .expr test => return (none, test, rest)
      | .phrase _ => none
  | [] => none

def readIf (I : Interior) (ts : Forest) : Option (Stmt × Forest) :=
  match readHeader I ts.tail with
  | none => none
  | some (init, test, rest) =>
    match readBlock I rest with
    | none => none
    | some (body, rest) =>
      let finish (other : Option Stmt) (rest : Forest) : Stmt × Forest :=
        (.cond init test body other (ts.spanOf rest), rest)
      match rest with
      | t :: next =>
        if t.isWord "else" && !t.onNewLine then
          if next.head?.any (Tree.isWord "if") then
            if next.length < ts.length then
              (readIf I next).map fun (other, rest) => finish (some other) rest
            else none
          else (readBlock I next).map fun (other, rest) => finish (some (.block other)) rest
        else some (finish none rest)
      | [] => some (finish none [])
termination_by ts.length

/-- The header of a loop. -/
inductive LoopHeader where
  | clauses (init : Option Stmt) (test : Option Expr) (post : Option Stmt)
  | range

namespace LoopHeader

/-- The operand of `range`, from that word. -/
def readRange (I : Interior) : Reader LoopHeader
  | t :: ts =>
    if t.isWord "range" then
      (Expr.read I .header ts).map fun (_, rest) => (.range, rest)
    else none
  | [] => none

/-- After the expressions at the head of a loop, `range` and what takes its
values. -/
def ranges : Forest → Bool
  | op :: word :: _ => (op.isOperator .assign || op.isOperator .define) && word.isWord "range"
  | _ => false

/-- The test and the post statement, after the first semicolon. -/
def readClauses (I : Interior) (init : Option Stmt) (ts : Forest) :
    Option (LoopHeader × Forest) := do
  let (test, rest) ←
    if ts.head?.any (Tree.isMark .semicolon) then some (none, ts)
    else (Expr.read I .inside ts).map fun (e, rest) => (some e, rest)
  guard (rest.head?.any (Tree.isMark .semicolon))
  match rest.tail with
  | .group .brace gap inner closing span :: rest =>
    return (.clauses init test none, .group .brace gap inner closing span :: rest)
  | rest =>
    let (post, rest) ← Simple.read I .header .header rest
    return (.clauses init test (some post.stmt), rest)

/-- The header of a loop, up to its body. -/
def read (I : Interior) : Reader LoopHeader := fun ts =>
  match ts with
  | [] => none
  | .group .brace .. :: _ => some (.clauses none none none, ts)
  | t :: rest =>
    if t.isWord "range" then readRange I ts
    else if t.isMark .semicolon then readClauses I none rest
    else do
      let (lhs, rest) ← Expr.readList I Place.header.stepping ts
      if ranges rest then readRange I rest.tail
      else
        let (first, rest) ← Simple.readAfter I .inside ts lhs rest
        if rest.head?.any (Tree.isMark .semicolon) then readClauses I (some first.stmt) rest.tail
        else
          match first with
          | .expr test => return (.clauses none (some test) none, rest)
          | .phrase _ => none

end LoopHeader

def readFor (I : Interior) (ts : Forest) : Option (Stmt × Forest) := do
  let (header, rest) ← LoopHeader.read I ts.tail
  let (body, rest) ← readBlock I rest
  match header with
  | .clauses init test post => return (.loop init test post body (ts.spanOf rest), rest)
  | .range => return (.unsupported (ts.spanOf rest), rest)

/-! ## Switches -/

/-- The forest ends in `.(type)`. -/
def Forest.endsInTypeGuard (ts : Forest) : Bool :=
  match ts.reverse with
  | .group .paren _ [t] _ _ :: dot :: _ => t.isWord "type" && dot.isMark .dot
  | _ => false

/-- A simple statement read from `ts` is the value or the type guard of a switch;
whether it is a type guard. An operator leaves `.(type)` to its last operand, where
it is a type assertion. -/
def switchValue? (ts rest : Forest) : Simple → Option Bool
  | .expr (.unsupported _) => some (ts.used rest).endsInTypeGuard
  | .expr _ => some false
  | .phrase ⟨.shortVar, .assign _ _ [.unsupported _] _⟩ =>
    if (ts.used rest).endsInTypeGuard then some true else none
  | .phrase _ => none

/-- The value or the type guard of a switch, if there is one, up to the cases. -/
def readSwitchValue (I : Interior) : Reader Bool := fun ts =>
  match ts with
  | .group .brace .. :: _ => some (false, ts)
  | _ =>
    (Simple.read I .header .inside ts).bind fun (value, rest) =>
      (switchValue? ts rest value).map fun guards => (guards, rest)

/-- The header of a switch, up to its cases; whether it is a type switch. -/
def readSwitchHeader (I : Interior) : Reader Bool := fun ts =>
  match ts with
  | .group .brace .. :: _ => some (false, ts)
  | _ =>
    (Simple.read I .header .inside ts).bind fun (first, rest) =>
      if rest.head?.any (Tree.isMark .semicolon) then readSwitchValue I rest.tail
      else (switchValue? ts rest first).map fun guards => (guards, rest)

def readSwitch (I : Interior) (ts : Forest) : Option (Phrase × Forest) := do
  let (overTypes, rest) ← readSwitchHeader I ts.tail
  match rest with
  | .group .brace _ inner _ _ :: rest =>
    if overTypes then
      guard (I.typeCases inner)
      return (.opaquely .typeSwitch ts rest, rest)
    else
      guard (I.valueCases inner)
      return (.opaquely .exprSwitch ts rest, rest)
  | _ => none

def readSelect (I : Interior) (ts : Forest) : Option (Phrase × Forest) :=
  match ts.tail with
  | .group .brace _ inner _ _ :: rest =>
    if I.commCases inner then some (.opaquely .select ts rest, rest) else none
  | _ => none

/-! ## Statements -/

/-- A word that begins the next case of a switch, and never a label or an
operand of the statement before. -/
def Tree.beginsCase (t : Tree) : Bool := t.isWord "case" || t.isWord "default"

/-- A statement that is complete after its first word goes on with what follows. -/
def continues (ts : Forest) : Bool :=
  match ts with
  | [] => false
  | t :: _ => !t.onNewLine && !t.isTerminator && !t.beginsCase

def readReturn (I : Interior) (ts : Forest) : Option (Phrase × Forest) :=
  if continues ts.tail then
    (Expr.readList I .listed ts.tail).map fun (results, rest) =>
      (⟨.return, .ret results (ts.spanOf rest)⟩, rest)
  else some (⟨.return, .ret [] (ts.spanOf ts.tail)⟩, ts.tail)

/-- A jump with a label if it has one, from its first word. -/
def readJump (kind : ItemKind) (ts : Forest) : Option (Phrase × Forest) :=
  match ts.tail with
  | label :: rest =>
    if label.word?.isSome && continues ts.tail then some (.opaquely kind ts rest, rest)
    else some (.opaquely kind ts ts.tail, ts.tail)
  | [] => some (.opaquely kind ts [], [])

/-- A statement that begins with a word of its own. -/
def readWorded? (I : Interior) (w : String) (ts : Forest) : Option (Option (Phrase × Forest)) :=
  match w with
  | "var" => some (readValueDecl I .var ts)
  | "const" => some (readValueDecl I .const ts)
  | "type" => some (readTypeDecl I ts)
  | "return" => some (readReturn I ts)
  | "go" => some ((Expr.read I .listed ts.tail).map fun (_, rest) => (.opaquely .go ts rest, rest))
  | "defer" =>
    some ((Expr.read I .listed ts.tail).map fun (_, rest) => (.opaquely .defer ts rest, rest))
  | "if" => some ((readIf I ts).map fun (s, rest) => (⟨.if, s⟩, rest))
  | "for" => some ((readFor I ts).map fun (s, rest) => (⟨.for, s⟩, rest))
  | "switch" => some (readSwitch I ts)
  | "select" => some (readSelect I ts)
  | "fallthrough" => some (some (.opaquely .fallthrough ts ts.tail, ts.tail))
  | "break" => some (readJump .break ts)
  | "continue" => some (readJump .continue ts)
  | "goto" =>
    match ts.tail with
    | label :: rest =>
      some (if label.word?.isSome then some (.opaquely .goto ts rest, rest) else none)
    | [] => some none
  | _ => none

/-- The words that `readWorded?` knows. -/
def isStatementWord (w : String) : Bool :=
  ["var", "const", "type", "return", "go", "defer", "if", "for", "switch", "select",
    "fallthrough", "break", "continue", "goto"].contains w

/-- A label at the head of a forest, with its colon on the same line. -/
def beginsWithLabel : Forest → Bool
  | x :: colon :: _ =>
    x.word?.any (fun w => !(Expr.isOperandWord w || isTypeWord w || isStatementWord w))
      && colon.isMark .colon && !colon.onNewLine
  | _ => false

def readStmt (I : Interior) : Reader Phrase
  | [] => none
  | t :: ts =>
    if t.isMark .semicolon then some (.opaquely .empty (t :: ts) ts, ts)
    else if beginsWithLabel (t :: ts) then
      match ts with
      | _ :: rest =>
        (readStmt I rest).map fun (p, rest) =>
          (⟨.labeled, .unsupported (t.span.through p.stmt.span)⟩, rest)
      | [] => none
    else
      match t.word?.bind fun w => readWorded? I w (t :: ts) with
      | some r => r
      | none =>
        match t with
        | .group .brace .. =>
          (readBlock I (t :: ts)).map fun (b, rest) => (⟨.block, .block b⟩, rest)
        | _ =>
          (Simple.read I .listed .listed (t :: ts)).map fun (s, rest) => (s.toPhrase, rest)

/-- A label with no statement after it before the list of statements ends. -/
def isLoneLabel (stop : Tree → Bool) (ts : Forest) : Bool :=
  beginsWithLabel ts && !ts.head?.any stop && (ts.drop 2).head?.all stop

/-- The statements of a list, up to its end or to a tree that `stop` names. The
last one may be a lone label, unless it is also the first. -/
def readList (I : Interior) (stop : Tree → Bool) (ts : Forest) :
    Except Forest (List Phrase × Forest) :=
  if isLoneLabel stop ts then .error ts
  else
    Reader.lines stop (fun ts =>
      if isLoneLabel stop ts then some (.opaquely .labeled ts (ts.drop 2), ts.drop 2)
      else readStmt I ts) ts

/-- The statements of a block, empty ones left out. -/
def readStmts (I : Interior) (ts : Forest) : Option (List Stmt) :=
  match readList I (fun _ => false) ts with
  | .ok (phrases, []) => some ((phrases.filter fun p => p.kind != .empty).map Phrase.stmt)
  | _ => none

/-! ## Cases -/

/-- One communication of a `select`: a send, or a receive perhaps with names for
what it yields. -/
def readComm (I : Interior) : Reader Unit := fun ts =>
  match Simple.read I .inside .inside ts with
  | some (.expr _, rest) => some ((), rest)
  | some (.phrase ⟨kind, .assign _ op [_] _⟩, rest) =>
    if kind = .shortVar || op = .assign then some ((), rest) else none
  | some (.phrase ⟨.send, _⟩, rest) => some ((), rest)
  | _ => none

/-- Cases, each with the head that `head` reads and its statements. -/
def readCases (I : Interior) (head : Reader Unit) (ts : Forest) : Bool :=
  match ts with
  | [] => true
  | t :: rest =>
    let afterHead : Option Forest :=
      if t.isWord "default" then some rest
      else if t.isWord "case" then (head rest).map Prod.snd
      else none
    match afterHead with
    | some (colon :: body) =>
      if colon.isMark .colon then
        match readList I Tree.beginsCase body with
        | .ok (_, rest') =>
          if rest'.length < (t :: rest).length then readCases I head rest' else false
        | .error _ => false
      else false
    | _ => false
termination_by ts.length
decreasing_by assumption

def readCaseValues (I : Interior) : Reader Unit := fun ts =>
  (Expr.readList I .inside ts).map fun (_, rest) => ((), rest)

def readCaseTypes (I : Interior) : Reader Unit := fun ts =>
  (Reader.separated false .comma (TypeExpr.read I false) ts).map fun (_, rest) => ((), rest)

end Recast
