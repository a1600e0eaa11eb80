import Recast.Proofs.PlacelessExpr

/-!
# Reading declarations without places

The readers of declarations hand spans on and look at none (`readValueDecl_placeless`), if the
readers for the contents of brackets do not.
-/

namespace Recast

variable {I : Interior}

def Phrase.unplaced (p : Phrase) : Phrase := ⟨p.kind, p.stmt.unplaced⟩

namespace Phrase

theorem opaquely_unplaced (kind : ItemKind) (ts rest : Forest) :
    (opaquely kind ts rest).unplaced
      = opaquely kind (ts.map Tree.unplaced) (rest.map Tree.unplaced) := by
  rw [opaquely, opaquely, Forest.spanOf_unplaced]
  rfl

end Phrase

/-! ## Variables and constants -/

theorem readNames_placeless (line : Bool) :
    Reader.Placeless (List.map Ident.unplaced) (readNames line) := by
  intro ts
  induction hn : ts.length using Nat.strongRecOn generalizing ts with
  | ind n ih =>
    rcases ts with _ | ⟨t, _ | ⟨comma, ts⟩⟩
    · rfl
    · simp only [List.map_cons, List.map_nil, readNames, Tree.ident?_unplaced]
      cases t.ident? <;> rfl
    · simp only [List.map_cons, readNames, Tree.ident?_unplaced, Tree.isMark_unplaced,
        Tree.onNewLine_unplaced, Tree.span_unplaced]
      cases t.ident? with
      | none => rfl
      | some x =>
        simp only [Option.map_some]
        split
        · rw [ih ts.length (hn ▸ by simp only [List.length_cons]; omega) ts rfl, Option.map_map,
            Option.map_map]
          rfl
        · rfl

namespace ValueSpec

theorem readValues_placeless (hI : I.Placeless) :
    Reader.Placeless (List.map Expr.unplaced) (readValues I) := by
  intro ts
  cases ts with
  | nil => rfl
  | cons t ts =>
    rw [List.map_cons, readValues, readValues, Tree.isOperator_unplaced,
      Expr.readList_placeless hI]
    split <;> rfl

/-- What is read of a specification after its names, without spans. -/
def unplacedParts : Option TypeExpr × List Expr × Forest → Option TypeExpr × List Expr × Forest
  | (type, values, rest) =>
    (type.map TypeExpr.unplaced, values.map Expr.unplaced, rest.map Tree.unplaced)

theorem readVar_unplaced (hI : I.Placeless) (ts : Forest) :
    readVar I (ts.map Tree.unplaced) = (readVar I ts).map unplacedParts := by
  rw [readVar, readVar, readValues_placeless hI, TypeExpr.read_placeless hI]
  rcases readValues I ts with _ | ⟨values, rest⟩
  · rcases TypeExpr.read I true ts with _ | ⟨type, rest⟩
    · rfl
    · simp only [Option.map_none, Option.map_some, Prod.map_apply, Option.bind_eq_bind,
        Option.bind_some, Forest.ends_unplaced, readValues_placeless hI rest,
        Forest.head?_any_unplaced (Tree.isOperator_unplaced .assign)]
      split
      · rcases readValues I rest with _ | ⟨values, rest⟩ <;> rfl
      · rfl
  · rfl

theorem readConst_unplaced (hI : I.Placeless) (ts : Forest) :
    readConst I (ts.map Tree.unplaced) = (readConst I ts).map unplacedParts := by
  rw [readConst, readConst, readValues_placeless hI, TypeExpr.read_placeless hI,
    Forest.ends_unplaced, Forest.head?_any_unplaced Tree.isTerminator_unplaced]
  split
  · rfl
  · rcases readValues I ts with _ | ⟨values, rest⟩
    · rcases TypeExpr.read I false ts with _ | ⟨type, rest⟩
      · rfl
      · simp only [Option.map_none, Option.map_some, Prod.map_apply, Option.bind_eq_bind,
          Option.bind_some, readValues_placeless hI rest]
        rcases readValues I rest with _ | ⟨values, rest⟩ <;> rfl
    · rfl

theorem read_placeless (hI : I.Placeless) (kind : DeclKind) :
    Reader.Placeless unplaced (read I kind) := by
  intro ts
  rw [read, read, readNames_placeless]
  rcases readNames (kind = .const) ts with _ | ⟨names, rest⟩
  · rfl
  · cases kind with
    | var =>
      simp only [Option.map_some, Prod.map_apply, Option.bind_eq_bind, Option.bind_some,
        readVar_unplaced hI]
      rcases readVar I rest with _ | ⟨type, values, rest⟩
      · rfl
      · simp [unplacedParts, unplaced, Forest.spanOf_unplaced, Expr.unplacedList_eq,
          List.filter_map]
        rfl
    | const =>
      simp only [Option.map_some, Prod.map_apply, Option.bind_eq_bind, Option.bind_some,
        readConst_unplaced hI]
      rcases readConst I rest with _ | ⟨type, values, rest⟩
      · rfl
      · simp [unplacedParts, unplaced, Forest.spanOf_unplaced, Expr.unplacedList_eq]

theorem readGroup_unplaced (hI : I.Placeless) (kind : DeclKind) (ts : Forest) (closing : Gap) :
    readGroup I kind (ts.map Tree.unplaced) closing
      = (readGroup I kind ts closing).map (List.map unplaced) := by
  rw [readGroup, readGroup, Forest.isTerminated_unplaced, (read_placeless hI kind).allLines]
  split <;> rfl

end ValueSpec

theorem readValueDecl_placeless (hI : I.Placeless) (kind : DeclKind) :
    Reader.Placeless Phrase.unplaced (readValueDecl I kind) := by
  intro ts
  have hspec := ValueSpec.read_placeless hI kind ts.tail
  simp only [readValueDecl, ← List.map_tail, Forest.spanOf_unplaced]
  generalize ts.tail = tail at hspec ⊢
  rcases tail with _ | ⟨⟨k, g, s⟩ | ⟨_ | _ | _, gap, inner, closing, span⟩, rest⟩
  case cons.group.paren =>
    simp only [List.map_cons, Tree.unplaced_group, hI.valueSpecs, Option.map_map]
    refine congrArg (Option.map · _) (funext fun specs => ?_)
    simp only [Function.comp_apply, Prod.map_apply, Phrase.unplaced, Stmt.unplaced]
  all_goals
    simp only [List.map_cons, List.map_nil, Tree.unplaced_leaf, Tree.unplaced_group] at hspec ⊢
    rw [hspec]
    refine Reader.map_unplaced (fun spec rest => ?_) _
    simp only [Prod.map_apply, Phrase.unplaced, Stmt.unplaced, List.map_cons, List.map_nil]

/-! ## Types and imports -/

/-- The type of a specification, after the `=` of an alias if there is one. -/
def afterAssign (ts : Forest) : Forest :=
  match ts with
  | eq :: rest => if eq.isOperator .assign then rest else ts
  | [] => []

theorem afterAssign_unplaced (ts : Forest) :
    afterAssign (ts.map Tree.unplaced) = (afterAssign ts).map Tree.unplaced := by
  cases ts with
  | nil => rfl
  | cons eq rest =>
    simp only [afterAssign, List.map_cons, Tree.isOperator_unplaced]
    split <;> rfl

theorem readTypeSpec_placeless (hI : I.Placeless) : Reader.Placeless id (readTypeSpec I) := by
  intro ts
  have hplain : ∀ us : Forest,
      ((TypeExpr.read I true (afterAssign (us.map Tree.unplaced))).map fun q => ((), q.2))
        = ((TypeExpr.read I true (afterAssign us)).map fun q => ((), q.2)).map
            (Prod.map id (List.map Tree.unplaced)) := by
    intro us
    rw [afterAssign_unplaced, TypeExpr.read_placeless hI]
    exact Reader.map_unplaced (fun _ _ => rfl) _
  rcases ts with _ | ⟨x, ts⟩
  · rfl
  · simp only [readTypeSpec, List.map_cons, Tree.ident?_unplaced, Option.isNone_map]
    split
    · rfl
    · simp only [Option.orElse_eq_orElse, Option.orElse_eq_or, Option.map_or]
      refine congrArg₂ Option.or (hplain ts) ?_
      rcases ts with _ | ⟨⟨l⟩ | ⟨_ | _ | _, gap, params, closing, span⟩, ts⟩
      case cons.group.square =>
        simp only [List.map_cons, Tree.unplaced_group, hI.typeParams]
        split
        · exact hplain ts
        · rfl
      all_goals rfl

theorem readTypeSpecs_unplaced (hI : I.Placeless) (ts : Forest) (closing : Gap) :
    readTypeSpecs I (ts.map Tree.unplaced) closing = readTypeSpecs I ts closing := by
  rw [readTypeSpecs, readTypeSpecs, Forest.isTerminated_unplaced,
    (readTypeSpec_placeless hI).allLines, Option.isSome_map]

/-- A declaration that is kept as unsupported, from what is read of one specification. -/
theorem map_opaquely_unplaced {read : Reader Unit} (h : Reader.Placeless id read) (kind : ItemKind)
    (ts us : Forest) :
    ((read (us.map Tree.unplaced)).map fun (_, rest) =>
        (Phrase.opaquely kind (ts.map Tree.unplaced) rest, rest))
      = ((read us).map fun (_, rest) => (Phrase.opaquely kind ts rest, rest)).map
          (Prod.map Phrase.unplaced (List.map Tree.unplaced)) := by
  rw [h]
  refine Reader.map_unplaced (fun _ rest => ?_) _
  simp only [Prod.map_apply, Phrase.opaquely_unplaced]

theorem readTypeDecl_placeless (hI : I.Placeless) :
    Reader.Placeless Phrase.unplaced (readTypeDecl I) := by
  intro ts
  have hspec := map_opaquely_unplaced (readTypeSpec_placeless hI) .typeDecl ts ts.tail
  simp only [readTypeDecl, ← List.map_tail]
  generalize ts.tail = tail at hspec ⊢
  rcases tail with _ | ⟨⟨l⟩ | ⟨_ | _ | _, gap, inner, closing, span⟩, rest⟩
  case cons.group.paren =>
    simp only [List.map_cons, Tree.unplaced_group, hI.typeSpecs, ← Phrase.opaquely_unplaced]
    split <;> rfl
  all_goals exact hspec

theorem readImportSpec_placeless : Reader.Placeless id readImportSpec := by
  intro ts
  rcases ts with _ | ⟨t, _ | ⟨path, ts⟩⟩
  · rfl
  · simp only [List.map_cons, List.map_nil, readImportSpec, Tree.isString_unplaced,
      Tree.isMark_unplaced, Tree.word?_unplaced]
    split_ifs <;> rfl
  · simp only [List.map_cons, readImportSpec, Tree.isString_unplaced, Tree.isMark_unplaced,
      Tree.word?_unplaced]
    split_ifs <;> rfl

theorem readImportSpecs_unplaced (ts : Forest) :
    readImportSpecs (ts.map Tree.unplaced) = readImportSpecs ts := by
  rw [readImportSpecs, readImportSpecs, readImportSpec_placeless.allLines, Option.isSome_map]

end Recast
