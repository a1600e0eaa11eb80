import Recast.Proofs.PlacelessDecl

/-!
# Reading statements without places

The readers of statements hand spans on and look at none (`readStmt_placeless`), if the readers for
the contents of brackets do not.
-/

namespace Recast

variable {I : Interior}

/-! ## Simple statements -/

namespace Simple

def unplaced : Simple → Simple
  | .expr e => .expr e.unplaced
  | .phrase p => .phrase p.unplaced

@[simp] theorem toPhrase_unplaced (s : Simple) : s.unplaced.toPhrase = s.toPhrase.unplaced := by
  cases s with
  | expr e =>
    rw [unplaced, toPhrase, Expr.span_unplaced]
    rfl
  | phrase p => rfl

@[simp] theorem stmt_unplaced (s : Simple) : s.unplaced.stmt = s.stmt.unplaced := by
  rw [stmt, stmt, toPhrase_unplaced]
  rfl

/-- One expression on its own. -/
def alone (lhs : List Expr) (rest : Forest) : Option (Simple × Forest) :=
  match lhs with
  | [e] => some (.expr e, rest)
  | _ => none

theorem alone_unplaced (lhs : List Expr) (rest : Forest) :
    alone (lhs.map Expr.unplaced) (rest.map Tree.unplaced)
      = (alone lhs rest).map (Prod.map unplaced (List.map Tree.unplaced)) := by
  rcases lhs with _ | ⟨e, _ | ⟨e', lhs⟩⟩ <;> rfl

/-- A step of one expression. -/
def stepped (ts : Forest) (lhs : List Expr) (rest : Forest) (kind : ItemKind) (op : Operator) :
    Option (Simple × Forest) :=
  match lhs with
  | [e] =>
    let rest' := rest.drop 2
    some (.phrase ⟨kind, .step e op (ts.spanOf rest')⟩, rest')
  | _ => none

theorem stepped_unplaced (ts : Forest) (lhs : List Expr) (rest : Forest) (kind : ItemKind)
    (op : Operator) :
    stepped (ts.map Tree.unplaced) (lhs.map Expr.unplaced) (rest.map Tree.unplaced) kind op
      = (stepped ts lhs rest kind op).map (Prod.map unplaced (List.map Tree.unplaced)) := by
  rcases lhs with _ | ⟨e, _ | ⟨e', lhs⟩⟩
  · rfl
  · simp only [stepped, List.map_cons, List.map_nil, Forest.spanOf_unplaced, ← List.map_drop]
    rfl
  · rfl

theorem readAfter_unplaced (hI : I.Placeless) (q : Place) (ts : Forest) (lhs : List Expr)
    (rest : Forest) :
    readAfter I q (ts.map Tree.unplaced) (lhs.map Expr.unplaced) (rest.map Tree.unplaced)
      = (readAfter I q ts lhs rest).map (Prod.map unplaced (List.map Tree.unplaced)) := by
  have halone := alone_unplaced lhs rest
  have hstep := stepped_unplaced ts lhs rest
  simp only [readAfter, Forest.ends_unplaced, Forest.pair?_unplaced, List.length_map]
  split
  · exact halone
  · generalize Forest.pair? rest = pair
    split
    · exact hstep .inc .inc
    · exact hstep .dec .dec
    · split
      · rw [← List.map_drop, Expr.read_placeless hI]
        refine Reader.map_unplaced (fun sent rest => ?_) _
        simp only [Prod.map_apply, unplaced, Phrase.opaquely_unplaced]
      · rfl
    · rcases rest with _ | ⟨t, rhs⟩
      · exact halone
      · simp only [List.map_cons, Tree.isMark_unplaced, Tree.operator?_unplaced]
        generalize (if t.isMark (.operator .define) then some (ItemKind.shortVar, Operator.define)
          else (t.operator?.filter Operator.isAssignment).map fun op => (.assignment, op)) = assigns
        rcases assigns with _ | ⟨kind, op⟩
        · exact halone
        · simp only [Expr.readList_placeless hI q rhs, Option.map_map, Forest.spanOf_unplaced]
          refine congrArg (Option.map · _) (funext fun assigned => ?_)
          simp only [Function.comp_apply, Prod.map_apply, Prod.map_fst, Prod.map_snd, unplaced,
            Phrase.unplaced, Stmt.unplaced, Expr.unplacedList_eq]

theorem read_placeless (hI : I.Placeless) (p q : Place) :
    Reader.Placeless unplaced (read I p q) := by
  intro ts
  rw [read, read, Expr.readList_placeless hI]
  rcases Expr.readList I p.stepping ts with _ | ⟨lhs, rest⟩
  · rfl
  · exact readAfter_unplaced hI q ts lhs rest

end Simple

/-! ## Headers -/

theorem readBlock_placeless (hI : I.Placeless) : Reader.Placeless Block.unplaced (readBlock I) := by
  intro ts
  rcases ts with _ | ⟨⟨l⟩ | ⟨_ | _ | _, gap, inner, closing, span⟩, ts⟩
  case cons.group.brace =>
    simp only [readBlock, List.map_cons, Tree.unplaced_group, hI.block, Option.map_map]
    refine congrArg (Option.map · _) (funext fun stmts => ?_)
    simp only [Function.comp_apply, Prod.map_apply, Block.unplaced, Stmt.unplacedList_eq]
  all_goals rfl

/-- The header of a conditional, without spans. -/
def unplacedHeader : Option Stmt × Expr × Forest → Option Stmt × Expr × Forest
  | (init, test, rest) => (init.map Stmt.unplaced, test.unplaced, rest.map Tree.unplaced)

theorem readHeader_unplaced (hI : I.Placeless) (ts : Forest) :
    readHeader I (ts.map Tree.unplaced) = (readHeader I ts).map unplacedHeader := by
  rw [readHeader, readHeader, Simple.read_placeless hI]
  rcases Simple.read I .header .inside ts with _ | ⟨first, _ | ⟨t, rest⟩⟩
  · rfl
  · rfl
  · simp only [Option.map_some, Prod.map_apply, List.map_cons, Option.bind_eq_bind,
      Option.bind_some, Tree.isMark_unplaced, Expr.read_placeless hI _ rest]
    split
    · rcases Expr.read I .header rest with _ | ⟨test, rest⟩
      · rfl
      · simp [unplacedHeader]
    · cases first <;> rfl

theorem readIf_placeless (hI : I.Placeless) : Reader.Placeless Stmt.unplaced (readIf I) := by
  intro ts
  induction hn : ts.length using Nat.strongRecOn generalizing ts with
  | ind n ih =>
    rw [readIf, ← List.map_tail, readHeader_unplaced hI]
    conv_rhs => rw [readIf]
    rcases readHeader I ts.tail with _ | ⟨init, test, rest⟩
    · rfl
    · simp only [Option.map_some, unplacedHeader, readBlock_placeless hI rest]
      rcases readBlock I rest with _ | ⟨body, _ | ⟨t, next⟩⟩
      · rfl
      · simp [Stmt.unplaced, Forest.spanOf_unplaced, Stmt.unplacedOption_eq]
      · simp only [Option.map_some, Prod.map_apply, List.map_cons, Tree.isWord_unplaced,
          Tree.onNewLine_unplaced, Forest.head?_any_unplaced (Tree.isWord_unplaced "if"),
          List.length_map, Forest.spanOf_unplaced]
        split
        · split
          · split
            · rename_i hlt
              rw [ih _ (hn ▸ hlt) next rfl]
              rcases readIf I next with _ | ⟨other, rest⟩
              · rfl
              · simp [Stmt.unplaced, Stmt.unplacedOption_eq]
            · rfl
          · rw [readBlock_placeless hI]
            rcases readBlock I next with _ | ⟨other, rest⟩
            · rfl
            · simp [Stmt.unplaced, Stmt.unplacedOption_eq]
        · simp [Stmt.unplaced, Stmt.unplacedOption_eq]

namespace LoopHeader

def unplaced : LoopHeader → LoopHeader
  | .clauses init test post =>
    .clauses (init.map Stmt.unplaced) (test.map Expr.unplaced) (post.map Stmt.unplaced)
  | .range => .range

theorem readRange_placeless (hI : I.Placeless) : Reader.Placeless unplaced (readRange I) := by
  intro ts
  cases ts with
  | nil => rfl
  | cons t ts =>
    rw [List.map_cons, readRange, readRange, Tree.isWord_unplaced, Expr.read_placeless hI]
    split
    · exact Reader.map_unplaced (fun _ _ => rfl) _
    · rfl

theorem ranges_unplaced (ts : Forest) : ranges (ts.map Tree.unplaced) = ranges ts := by
  rcases ts with _ | ⟨op, _ | ⟨word, ts⟩⟩
  · rfl
  · rfl
  · simp only [ranges, List.map_cons, Tree.isOperator_unplaced, Tree.isWord_unplaced]

/-- The post statement, after the test and the second semicolon. -/
def readPost (I : Interior) (init : Option Stmt) (test : Option Expr) (rest : Forest) :
    Option (LoopHeader × Forest) := do
  guard (rest.head?.any (Tree.isMark .semicolon))
  match rest.tail with
  | .group .brace gap inner closing span :: rest =>
    return (.clauses init test none, .group .brace gap inner closing span :: rest)
  | rest =>
    let (post, rest) ← Simple.read I .header .header rest
    return (.clauses init test (some post.stmt), rest)

theorem readPost_unplaced (hI : I.Placeless) (init : Option Stmt) (test : Option Expr)
    (rest : Forest) :
    readPost I (init.map Stmt.unplaced) (test.map Expr.unplaced) (rest.map Tree.unplaced)
      = (readPost I init test rest).map (Prod.map unplaced (List.map Tree.unplaced)) := by
  simp only [readPost, Forest.head?_any_unplaced (Tree.isMark_unplaced .semicolon),
    ← List.map_tail]
  by_cases hend : rest.head?.any (Tree.isMark .semicolon) = true
  · have hpost := Simple.read_placeless hI .header .header rest.tail
    simp only [guard, if_pos hend]
    generalize rest.tail = tail at hpost ⊢
    rcases tail with _ | ⟨⟨k, g, s⟩ | ⟨_ | _ | _, gap, inner, closing, span⟩, rest⟩
    case nil => rfl
    case cons.group.brace => simp [unplaced]
    all_goals
      simp only [List.map_cons, Tree.unplaced_leaf, Tree.unplaced_group] at hpost ⊢
      rw [hpost]
      generalize Simple.read I .header .header _ = found
      rcases found with _ | ⟨post, rest⟩
      · rfl
      · simp [unplaced]
  · simp only [guard, if_neg hend]
    rfl

theorem readClauses_unplaced (hI : I.Placeless) (init : Option Stmt) (ts : Forest) :
    readClauses I (init.map Stmt.unplaced) (ts.map Tree.unplaced)
      = (readClauses I init ts).map (Prod.map unplaced (List.map Tree.unplaced)) := by
  simp only [readClauses, Forest.head?_any_unplaced (Tree.isMark_unplaced .semicolon)]
  split
  · exact readPost_unplaced hI init none ts
  · rw [Expr.read_placeless hI]
    rcases Expr.read I .inside ts with _ | ⟨e, rest⟩
    · rfl
    · exact readPost_unplaced hI init (some e) rest

theorem read_placeless (hI : I.Placeless) : Reader.Placeless unplaced (read I) := by
  intro ts
  by_cases hbrace : ∃ gap inner closing span rest, ts = .group .brace gap inner closing span :: rest
  · obtain ⟨gap, inner, closing, span, rest, rfl⟩ := hbrace
    simp [read, unplaced]
  · rcases ts with _ | ⟨t, ts⟩
    · rfl
    · have hrange := readRange_placeless hI (t :: ts)
      have hlist := Expr.readList_placeless hI Place.header.stepping (t :: ts)
      rw [List.map_cons] at hrange hlist ⊢
      rw [read, read]
      simp only [Tree.isWord_unplaced, Tree.isMark_unplaced]
      split
      · exact hrange
      · split
        · exact readClauses_unplaced hI none ts
        · rw [hlist]
          rcases Expr.readList I Place.header.stepping (t :: ts) with _ | ⟨lhs, rest⟩
          · rfl
          · have hafter := Simple.readAfter_unplaced hI .inside (t :: ts) lhs rest
            rw [List.map_cons] at hafter
            simp only [Option.map_some, Prod.map_apply, Option.bind_eq_bind, Option.bind_some,
              ranges_unplaced, ← List.map_tail, readRange_placeless hI rest.tail, hafter]
            split
            · rfl
            · rcases Simple.readAfter I .inside (t :: ts) lhs rest with _ | ⟨first, rest⟩
              · rfl
              · have hclauses := readClauses_unplaced hI (some first.stmt) rest.tail
                simp only [Option.map_some, Prod.map_apply, Option.bind_some, Simple.stmt_unplaced,
                  Forest.head?_any_unplaced (Tree.isMark_unplaced .semicolon),
                  ← List.map_tail] at hclauses ⊢
                split
                · exact hclauses
                · cases first <;> rfl
      · rintro gap inner closing span rfl
        exact hbrace ⟨gap, inner, closing, span, ts, rfl⟩
      · intro gap inner closing span ht
        obtain ⟨inner', span', rfl⟩ := Tree.exists_eq_group_of_unplaced ht
        exact hbrace ⟨gap, inner', closing, span', ts, rfl⟩

end LoopHeader

theorem readFor_placeless (hI : I.Placeless) : Reader.Placeless Stmt.unplaced (readFor I) := by
  intro ts
  rw [readFor, readFor, ← List.map_tail, LoopHeader.read_placeless hI]
  rcases LoopHeader.read I ts.tail with _ | ⟨header, rest⟩
  · rfl
  · simp only [Option.map_some, Prod.map_apply, Option.bind_eq_bind, Option.bind_some,
      readBlock_placeless hI rest]
    rcases readBlock I rest with _ | ⟨body, rest⟩
    · rfl
    · cases header <;>
        simp [LoopHeader.unplaced, Stmt.unplaced, Stmt.unplacedOption_eq, Forest.spanOf_unplaced]

/-! ## Switches -/

theorem switchValue?_unplaced (ts rest : Forest) (s : Simple) :
    switchValue? (ts.map Tree.unplaced) (rest.map Tree.unplaced) s.unplaced
      = switchValue? ts rest s := by
  have hguard : (Forest.used (ts.map Tree.unplaced) (rest.map Tree.unplaced)).endsInTypeGuard
      = (Forest.used ts rest).endsInTypeGuard := by
    rw [Forest.used_unplaced, Forest.endsInTypeGuard_unplaced]
  rcases s with e | ⟨kind, stmt⟩
  · cases e <;> first | rfl | exact congrArg some hguard
  · cases kind <;> try rfl
    case shortVar =>
      rcases stmt with _ | ⟨lhs, op, rhs, span⟩ | _ | _ | _ | _ | b | _ <;> try rfl
      rcases rhs with _ | ⟨e, _ | ⟨e', rhs⟩⟩
      · rfl
      · cases e <;> try rfl
        simp only [Simple.unplaced, Phrase.unplaced, Stmt.unplaced, Expr.unplacedList,
          Expr.unplaced, switchValue?, hguard]
      · cases e <;> rfl

theorem readSwitchValue_placeless (hI : I.Placeless) : Reader.Placeless id (readSwitchValue I) := by
  intro ts
  have hread := Simple.read_placeless hI .header .inside ts
  have hvalue : ((Simple.read I .header .inside (ts.map Tree.unplaced)).bind fun (value, rest) =>
        (switchValue? (ts.map Tree.unplaced) rest value).map fun guards => (guards, rest))
      = ((Simple.read I .header .inside ts).bind fun (value, rest) =>
          (switchValue? ts rest value).map fun guards => (guards, rest)).map
            (Prod.map id (List.map Tree.unplaced)) := by
    rw [hread]
    rcases Simple.read I .header .inside ts with _ | ⟨value, rest⟩
    · rfl
    · simp only [Option.map_some, Prod.map_apply, Option.bind_some, switchValue?_unplaced,
        Option.map_map]
      rfl
  rcases ts with _ | ⟨⟨l⟩ | ⟨_ | _ | _, gap, inner, closing, span⟩, ts⟩
  case cons.group.brace => simp [readSwitchValue]
  all_goals exact hvalue

theorem readSwitchHeader_placeless (hI : I.Placeless) :
    Reader.Placeless id (readSwitchHeader I) := by
  intro ts
  have hheader : ((Simple.read I .header .inside (ts.map Tree.unplaced)).bind fun (first, rest) =>
        if rest.head?.any (Tree.isMark .semicolon) then readSwitchValue I rest.tail
        else (switchValue? (ts.map Tree.unplaced) rest first).map fun guards => (guards, rest))
      = ((Simple.read I .header .inside ts).bind fun (first, rest) =>
          if rest.head?.any (Tree.isMark .semicolon) then readSwitchValue I rest.tail
          else (switchValue? ts rest first).map fun guards => (guards, rest)).map
            (Prod.map id (List.map Tree.unplaced)) := by
    rw [Simple.read_placeless hI]
    rcases Simple.read I .header .inside ts with _ | ⟨first, rest⟩
    · rfl
    · simp only [Option.map_some, Prod.map_apply, Option.bind_some, switchValue?_unplaced,
        Forest.head?_any_unplaced (Tree.isMark_unplaced .semicolon), ← List.map_tail,
        readSwitchValue_placeless hI rest.tail]
      split
      · rfl
      · rw [Option.map_map]
        rfl
  rcases ts with _ | ⟨⟨l⟩ | ⟨_ | _ | _, gap, inner, closing, span⟩, ts⟩
  case cons.group.brace => simp [readSwitchHeader]
  all_goals exact hheader

theorem readSwitch_placeless (hI : I.Placeless) :
    Reader.Placeless Phrase.unplaced (readSwitch I) := by
  intro ts
  rw [readSwitch, readSwitch, ← List.map_tail, readSwitchHeader_placeless hI]
  rcases readSwitchHeader I ts.tail with _ | ⟨overTypes, rest⟩
  · rfl
  · rcases rest with _ | ⟨⟨l⟩ | ⟨_ | _ | _, gap, inner, closing, span⟩, rest⟩
    case cons.group.brace =>
      simp only [Option.map_some, Prod.map_apply, Option.bind_eq_bind, Option.bind_some,
        List.map_cons, Tree.unplaced_group, hI.typeCases, hI.valueCases, id,
        ← Phrase.opaquely_unplaced]
      cases overTypes
      · cases I.valueCases inner <;> rfl
      · cases I.typeCases inner <;> rfl
    all_goals rfl

theorem readSelect_placeless (hI : I.Placeless) :
    Reader.Placeless Phrase.unplaced (readSelect I) := by
  intro ts
  rw [readSelect, readSelect, ← List.map_tail]
  rcases ts.tail with _ | ⟨⟨l⟩ | ⟨_ | _ | _, gap, inner, closing, span⟩, rest⟩
  case cons.group.brace =>
    simp only [List.map_cons, Tree.unplaced_group, hI.commCases, ← Phrase.opaquely_unplaced]
    split <;> rfl
  all_goals rfl

/-! ## Statements -/

theorem continues_unplaced (ts : Forest) : continues (ts.map Tree.unplaced) = continues ts := by
  cases ts with
  | nil => rfl
  | cons t ts => simp only [continues, List.map_cons, Tree.onNewLine_unplaced,
      Tree.isTerminator_unplaced, Tree.beginsCase_unplaced]

theorem readReturn_placeless (hI : I.Placeless) :
    Reader.Placeless Phrase.unplaced (readReturn I) := by
  intro ts
  rw [readReturn, readReturn, ← List.map_tail, continues_unplaced, Expr.readList_placeless hI]
  split
  · refine Reader.map_unplaced (fun values rest => ?_) _
    simp [Phrase.unplaced, Stmt.unplaced, Expr.unplacedList_eq, Forest.spanOf_unplaced]
  · simp [Phrase.unplaced, Stmt.unplaced, Expr.unplacedList_eq, Forest.spanOf_unplaced]

theorem readJump_placeless (kind : ItemKind) :
    Reader.Placeless Phrase.unplaced (readJump kind) := by
  intro ts
  rw [readJump, readJump, ← List.map_tail]
  have hcontinues := continues_unplaced ts.tail
  rcases htail : ts.tail with _ | ⟨label, rest⟩
  · simp only [List.map_nil, Option.map_some, Prod.map_apply, Phrase.opaquely_unplaced]
  · rw [htail] at hcontinues
    rw [List.map_cons] at hcontinues ⊢
    simp only [hcontinues, Tree.word?_unplaced, ← Phrase.opaquely_unplaced]
    split <;> simp [Phrase.opaquely_unplaced]

/-- A statement that is an expression after its first word, and kept as unsupported. -/
theorem readOpaque_unplaced (hI : I.Placeless) (kind : ItemKind) (ts : Forest) :
    ((Expr.read I .listed (ts.map Tree.unplaced).tail).map fun (_, rest) =>
        (Phrase.opaquely kind (ts.map Tree.unplaced) rest, rest))
      = ((Expr.read I .listed ts.tail).map fun (_, rest) =>
          (Phrase.opaquely kind ts rest, rest)).map
          (Prod.map Phrase.unplaced (List.map Tree.unplaced)) := by
  rw [← List.map_tail, Expr.read_placeless hI]
  refine Reader.map_unplaced (fun _ rest => ?_) _
  simp only [Prod.map_apply, Phrase.opaquely_unplaced]

/-- A statement that is a phrase of one kind. -/
theorem map_phrase_unplaced {read : Reader Stmt} (h : Reader.Placeless Stmt.unplaced read)
    (kind : ItemKind) (ts : Forest) :
    ((read (ts.map Tree.unplaced)).map fun (s, rest) => (Phrase.mk kind s, rest))
      = ((read ts).map fun (s, rest) => (Phrase.mk kind s, rest)).map
          (Prod.map Phrase.unplaced (List.map Tree.unplaced)) := by
  rw [h]
  exact Reader.map_unplaced (fun _ _ => rfl) _

theorem readWorded?_unplaced (hI : I.Placeless) (w : String) (ts : Forest) :
    readWorded? I w (ts.map Tree.unplaced)
      = (readWorded? I w ts).map
          (Option.map (Prod.map Phrase.unplaced (List.map Tree.unplaced))) := by
  unfold readWorded?
  split
  · exact congrArg some (readValueDecl_placeless hI .var ts)
  · exact congrArg some (readValueDecl_placeless hI .const ts)
  · exact congrArg some (readTypeDecl_placeless hI ts)
  · exact congrArg some (readReturn_placeless hI ts)
  · exact congrArg some (readOpaque_unplaced hI .go ts)
  · exact congrArg some (readOpaque_unplaced hI .defer ts)
  · exact congrArg some (map_phrase_unplaced (readIf_placeless hI) .if ts)
  · exact congrArg some (map_phrase_unplaced (readFor_placeless hI) .for ts)
  · exact congrArg some (readSwitch_placeless hI ts)
  · exact congrArg some (readSelect_placeless hI ts)
  · simp only [Option.map_some, Prod.map_apply, Phrase.opaquely_unplaced, List.map_tail]
  · exact congrArg some (readJump_placeless .break ts)
  · exact congrArg some (readJump_placeless .continue ts)
  · rw [← List.map_tail]
    rcases ts.tail with _ | ⟨label, rest⟩
    · rfl
    · simp only [List.map_cons, Tree.word?_unplaced, ← Phrase.opaquely_unplaced]
      split <;> rfl
  · rfl

theorem beginsWithLabel_unplaced (ts : Forest) :
    beginsWithLabel (ts.map Tree.unplaced) = beginsWithLabel ts := by
  rcases ts with _ | ⟨x, _ | ⟨colon, ts⟩⟩
  · rfl
  · rfl
  · simp only [beginsWithLabel, List.map_cons, Tree.word?_unplaced, Tree.isMark_unplaced,
      Tree.onNewLine_unplaced]

theorem readStmt_placeless (hI : I.Placeless) : Reader.Placeless Phrase.unplaced (readStmt I) := by
  intro ts
  induction hn : ts.length using Nat.strongRecOn generalizing ts with
  | ind n ih =>
    rcases ts with _ | ⟨t, ts⟩
    · rfl
    · have hlabel := beginsWithLabel_unplaced (t :: ts)
      have hworded := fun w => readWorded?_unplaced hI w (t :: ts)
      have hsimple : ((Simple.read I .listed .listed ((t :: ts).map Tree.unplaced)).map
            fun (s, rest) => (s.toPhrase, rest))
          = ((Simple.read I .listed .listed (t :: ts)).map fun (s, rest) => (s.toPhrase, rest)).map
              (Prod.map Phrase.unplaced (List.map Tree.unplaced)) := by
        rw [Simple.read_placeless hI]
        refine Reader.map_unplaced (fun s rest => ?_) _
        simp
      rw [List.map_cons] at hlabel hsimple ⊢
      simp only [List.map_cons] at hworded
      unfold readStmt
      simp only [Tree.isMark_unplaced, hlabel, Tree.word?_unplaced]
      split
      · rw [Option.map_some, Prod.map_apply, Phrase.opaquely_unplaced, List.map_cons]
      · split
        · rcases ts with _ | ⟨colon, rest⟩
          · rfl
          · simp only [List.map_cons]
            rw [ih rest.length (hn ▸ by simp only [List.length_cons]; omega) rest rfl]
            refine Reader.map_unplaced (fun p rest => ?_) _
            simp [Phrase.unplaced, Stmt.unplaced]
        · have hphrase :
              (t.word?.bind fun w => readWorded? I w (t.unplaced :: ts.map Tree.unplaced))
              = (t.word?.bind fun w => readWorded? I w (t :: ts)).map
                  (Option.map (Prod.map Phrase.unplaced (List.map Tree.unplaced))) := by
            cases t.word? with
            | none => rfl
            | some w => exact hworded w
          rw [hphrase]
          rcases t.word?.bind fun w => readWorded? I w (t :: ts) with _ | r
          · have hblock := readBlock_placeless hI (t :: ts)
            rcases t with ⟨k, g, s⟩ | ⟨_ | _ | _, gap, inner, closing, span⟩
            case group.brace =>
              simp only [List.map_cons, Tree.unplaced_group, Option.map_none] at hblock ⊢
              rw [hblock]
              refine Reader.map_unplaced (fun b rest => ?_) _
              simp [Phrase.unplaced, Stmt.unplaced]
            all_goals exact hsimple
          · rfl

theorem isLoneLabel_unplaced {stop : Tree → Bool} (hstop : ∀ t, stop t.unplaced = stop t)
    (ts : Forest) : isLoneLabel stop (ts.map Tree.unplaced) = isLoneLabel stop ts := by
  rw [isLoneLabel, isLoneLabel, beginsWithLabel_unplaced, Forest.head?_any_unplaced hstop,
    ← List.map_drop, Forest.head?_all_unplaced hstop]

theorem readList_unplaced (hI : I.Placeless) {stop : Tree → Bool}
    (hstop : ∀ t, stop t.unplaced = stop t) (ts : Forest) :
    readList I stop (ts.map Tree.unplaced)
      = ((readList I stop ts).map
          (Prod.map (List.map Phrase.unplaced) (List.map Tree.unplaced))).mapError
            (List.map Tree.unplaced) := by
  have hread : Reader.Placeless Phrase.unplaced fun ts =>
      if isLoneLabel stop ts then some (.opaquely .labeled ts (ts.drop 2), ts.drop 2)
      else readStmt I ts := by
    intro ts
    simp only [isLoneLabel_unplaced hstop, ← List.map_drop, readStmt_placeless hI ts,
      ← Phrase.opaquely_unplaced]
    split <;> rfl
  rw [readList, readList, isLoneLabel_unplaced hstop, hread.lines hstop]
  split <;> rfl

theorem readStmts_unplaced (hI : I.Placeless) (ts : Forest) :
    readStmts I (ts.map Tree.unplaced) = (readStmts I ts).map (List.map Stmt.unplaced) := by
  rw [readStmts, readStmts, readList_unplaced hI fun _ => rfl]
  rcases readList I (fun _ => false) ts with _ | ⟨phrases, _ | ⟨t, rest⟩⟩
  · rfl
  · simp [Except.map, Except.mapError, List.filter_map]
    rfl
  · rfl

/-! ## Cases -/

theorem readComm_placeless (hI : I.Placeless) : Reader.Placeless id (readComm I) := by
  intro ts
  rw [readComm, readComm, Simple.read_placeless hI]
  rcases Simple.read I .inside .inside ts with _ | ⟨e | ⟨kind, stmt⟩, rest⟩
  · rfl
  · rfl
  · cases stmt with
    | assign lhs op rhs span =>
      rcases rhs with _ | ⟨e, _ | ⟨e', rhs⟩⟩
      · cases kind <;> rfl
      · simp only [Option.map_some, Prod.map_apply, Simple.unplaced, Phrase.unplaced, Stmt.unplaced,
          Expr.unplacedList]
        split <;> rfl
      · cases kind <;> rfl
    | _ => cases kind <;> rfl

theorem readCases_unplaced (hI : I.Placeless) {head : Reader Unit}
    (hhead : Reader.Placeless id head) (ts : Forest) :
    readCases I head (ts.map Tree.unplaced) = readCases I head ts := by
  induction hn : ts.length using Nat.strongRecOn generalizing ts with
  | ind n ih =>
    rcases ts with _ | ⟨t, rest⟩
    · simp [readCases]
    · rw [List.map_cons, readCases]
      conv_rhs => rw [readCases]
      have hafter : (if t.isWord "default" then some (rest.map Tree.unplaced)
            else if t.isWord "case" then (head (rest.map Tree.unplaced)).map Prod.snd else none)
          = (if t.isWord "default" then some rest
            else if t.isWord "case" then (head rest).map Prod.snd else none).map
              (List.map Tree.unplaced) := by
        rw [hhead, Option.map_map]
        split
        · rfl
        · split
          · rw [Option.map_map]
            rfl
          · rfl
      simp only [Tree.isWord_unplaced, hafter]
      generalize (if t.isWord "default" then some rest
        else if t.isWord "case" then (head rest).map Prod.snd else none) = afterHead
      rcases afterHead with _ | _ | ⟨colon, body⟩
      · rfl
      · rfl
      · simp only [Option.map_some, List.map_cons, Tree.isMark_unplaced,
          readList_unplaced hI Tree.beginsCase_unplaced]
        split
        · rcases readList I Tree.beginsCase body with _ | ⟨phrases, rest'⟩
          · rfl
          · simp only [Except.map, Except.mapError, Prod.map_apply, List.length_cons,
              List.length_map]
            split
            · rename_i hlt
              exact ih rest'.length (hn ▸ hlt) rest' rfl
            · rfl
        · rfl

theorem readCaseValues_placeless (hI : I.Placeless) : Reader.Placeless id (readCaseValues I) := by
  intro ts
  rw [readCaseValues, readCaseValues, Expr.readList_placeless hI]
  exact Reader.map_unplaced (fun _ _ => rfl) _

theorem readCaseTypes_placeless (hI : I.Placeless) : Reader.Placeless id (readCaseTypes I) := by
  intro ts
  rw [readCaseTypes, readCaseTypes, (TypeExpr.read_placeless hI false).separated]
  exact Reader.map_unplaced (fun _ _ => rfl) _

end Recast
