import Recast.Proofs.PlacelessTypes

/-!
# Reading expressions without places

The readers of expressions hand spans on and look at none (`Expr.read_placeless`), if the readers
for the contents of brackets do not.
-/

namespace Recast

variable {I : Interior} {p : Place}

/-! ## Operators -/

theorem readBinary_unplaced (ts : Forest) :
    readBinary p (ts.map Tree.unplaced)
      = (readBinary p ts).map (Prod.map id (List.map Tree.unplaced)) := by
  cases ts with
  | nil => rfl
  | cons t ts =>
    have hpair := Forest.pair?_unplaced (t :: ts)
    simp only [List.map_cons] at hpair
    simp only [readBinary, List.map_cons, Tree.onNewLine_unplaced, Tree.operator?_unplaced, hpair]
    split
    · rfl
    · cases t.operator? with
      | none => rfl
      | some op =>
        simp only [← List.map_tail]
        split_ifs <;> rfl

namespace Expr

theorem extend_unplaced (op : Operator) (u : Expr) :
    ∀ e : Expr, (e.extend op u).unplaced = e.unplaced.extend op u.unplaced
  | .binary op' l r _ => by
    rw [extend, unplaced, extend, span_unplaced, Span.none_through_none]
    split
    · rw [unplaced, extend_unplaced op u r]
    · rw [unplaced, unplaced]
  | .literal .. | .name _ | .unary .. | .paren .. | .call .. | .selector .. | .unsupported _ => by
    simp only [extend, unplaced, span_unplaced]
    rfl

theorem isTypeName_unplaced (e : Expr) : e.unplaced.isTypeName = e.isTypeName := by
  cases e with
  | selector e field span => cases e <;> rfl
  | _ => rfl

/-! ## Operands -/

theorem afterType_unplaced (hI : I.Placeless) (isFunc hasElements : Bool) (s : Span)
    (ts : Forest) :
    afterType I isFunc hasElements .none (ts.map Tree.unplaced)
      = (afterType I isFunc hasElements s ts).map (Prod.map unplaced (List.map Tree.unplaced)) := by
  rcases ts with _ | ⟨⟨l⟩ | ⟨_ | _ | _, gap, inner, closing, span⟩, ts⟩
  · rfl
  · rfl
  · simp only [afterType, List.map_cons, Tree.unplaced_group, Forest.isSingle_unplaced, hI.args,
      Option.isSome_map]
    split <;> rfl
  · simp only [afterType, List.map_cons, Tree.unplaced_group, hI.types]
    split <;> rfl
  · simp only [afterType, List.map_cons, Tree.unplaced_group, hI.block, hI.literal,
      Option.isSome_map]
    split <;> rfl

theorem readTyped_placeless (hI : I.Placeless) : Reader.Placeless unplaced (readTyped I) := by
  intro ts
  cases ts with
  | nil => rfl
  | cons t ts =>
    have hread := TypeExpr.read_placeless hI false (t :: ts)
    have hafter := fun (hasElements : Bool) (type : TypeExpr) (rest : Forest) =>
      afterType_unplaced hI (t.isWord "func") hasElements type.span rest
    rw [List.map_cons] at hread
    simp only [readTyped, List.map_cons, List.head?_cons, Option.bind_eq_bind, Option.bind_some,
      hread, Tree.isWord_unplaced]
    rcases TypeExpr.read I false (t :: ts) with _ | ⟨type, rest⟩
    · rfl
    · simp only [Option.map_some, Prod.map_apply, Option.bind_some, TypeExpr.span_unplaced]
      rcases t with ⟨k, g, s⟩ | ⟨_ | _ | _, gap, inner, closing, span⟩ <;>
        exact hafter _ type rest

theorem readCounted_unplaced (hI : I.Placeless) (s : Span) (ts : Forest) :
    readCounted I .none (ts.map Tree.unplaced)
      = (readCounted I s ts).map (Prod.map unplaced (List.map Tree.unplaced)) := by
  rw [readCounted, readCounted, TypeExpr.read_placeless hI false]
  rcases TypeExpr.read I false ts with _ | ⟨type, rest⟩
  · rfl
  · rcases rest with _ | ⟨⟨l⟩ | ⟨_ | _ | _, gap, inner, closing, span⟩, rest⟩
    case cons.group.brace =>
      simp only [Option.map_some, Prod.map_apply, List.map_cons, Tree.unplaced_group,
        Option.bind_eq_bind, Option.bind_some, hI.literal]
      split <;> rfl
    all_goals rfl

theorem readPrimary_placeless (hI : I.Placeless) : Reader.Placeless unplaced (readPrimary I p) := by
  intro ts
  rcases ts with _ | ⟨t, ts⟩
  · rfl
  · have htyped := readTyped_placeless hI (t :: ts)
    rcases t with ⟨w | ⟨l, text⟩ | m, gap, span⟩ | ⟨_ | _ | _, gap, inner, closing, span⟩
    · simp only [List.map_cons, Tree.unplaced_leaf] at htyped ⊢
      simp only [readPrimary]
      split
      · exact htyped
      · rcases ts with _ | ⟨⟨l⟩ | ⟨_ | _ | _, gap', inner, closing, s⟩, ts⟩
        · rfl
        · rfl
        · simp only [List.map_cons, Tree.unplaced_group, hI.typedArgs]
          split
          · cases I.typedArgs inner with
            | none => rfl
            | some args => simp [unplaced, unplacedList_eq]
          · simp [unplaced]
        · simp [unplaced]
        · simp [unplaced]
    · rfl
    · simp only [List.map_cons, Tree.unplaced_leaf] at htyped ⊢
      cases m <;> first | rfl | exact htyped
    · have hafter := afterType_unplaced hI false false span ts
      simp only [List.map_cons, Tree.unplaced_group] at hafter ⊢
      simp only [readPrimary, hI.expr, hI.type, Option.isSome_map]
      cases I.expr inner with
      | none =>
        simp only [Option.map_none]
        split
        · exact hafter
        · rfl
      | some e =>
        simp only [Option.map_some]
        rcases ts with _ | ⟨⟨l⟩ | ⟨_ | _ | _, gap', args, closing', s⟩, ts⟩
        · rfl
        · rfl
        · simp only [List.map_cons, Tree.unplaced_group, Forest.isSingle_unplaced,
            hI.instantiated] at hafter ⊢
          split
          · exact hafter
          · simp [unplaced]
        · simp [unplaced]
        · simp [unplaced]
    · have hcounted := readCounted_unplaced hI span ts
      simp only [List.map_cons, Tree.unplaced_group] at htyped ⊢
      rcases inner with _ | ⟨dots, _ | ⟨u, inner⟩⟩
      · exact htyped
      · simp only [List.map_cons, List.map_nil] at htyped ⊢
        simp only [readPrimary, Tree.isMark_unplaced]
        split
        · exact hcounted
        · exact htyped
      · exact htyped
    · rfl

theorem withTypeArgs_unplaced (hI : I.Placeless) (e : Expr) (typeArgs : Forest) (next : Tree) :
    withTypeArgs I p e.unplaced (typeArgs.map Tree.unplaced) next.unplaced
      = (withTypeArgs I p e typeArgs next).map (Option.map unplaced) := by
  unfold withTypeArgs
  simp only [Tree.onNewLine_unplaced]
  by_cases hline : (p.line && next.onNewLine) = true
  · simp only [if_pos hline]
    rfl
  · simp only [if_neg hline]
    rcases next with ⟨k, g, s⟩ | ⟨_ | _ | _, gap, inner, closing, span⟩
    · rfl
    · simp only [Tree.unplaced_group, hI.typeArgs, hI.args, isTypeName_unplaced,
        Forest.isSingle_unplaced, span_unplaced]
      split
      · rw [Option.map_some, Option.map_map, Option.map_map]
        refine congrArg some (congrArg (Option.map · _) (funext fun es => ?_))
        simp only [Function.comp_apply]
        split
        · rfl
        · rw [unplaced, unplacedList_eq]
          rfl
      · rfl
    · rfl
    · simp only [Tree.unplaced_group, hI.typeArgs, hI.literal, isTypeName_unplaced]
      split
      · split
        · rw [Option.map_some, Option.map_some, unplaced, span_unplaced]
          rfl
        · rfl
      · rfl

theorem readPostfix_unplaced (hI : I.Placeless) (e : Expr) (ts : Forest) :
    readPostfix I p e.unplaced (ts.map Tree.unplaced)
      = (readPostfix I p e ts).map (Prod.map unplaced (List.map Tree.unplaced)) := by
  induction hn : ts.length using Nat.strongRecOn generalizing e ts with
  | ind n ih =>
    rcases ts with _ | ⟨t, ts⟩
    · simp [readPostfix]
    · have hgo : ∀ (e' : Expr) (us : Forest), us.length ≤ ts.length →
          readPostfix I p e'.unplaced (us.map Tree.unplaced)
            = (readPostfix I p e' us).map (Prod.map unplaced (List.map Tree.unplaced)) := by
        intro e' us hle
        refine ih us.length ?_ e' us rfl
        rw [← hn, List.length_cons]
        omega
      unfold readPostfix
      simp only [List.map_cons, Tree.onNewLine_unplaced]
      by_cases hline : (p.line && t.onNewLine) = true
      · simp only [if_pos hline]
        simp
      · simp only [if_neg hline]
        rcases t with ⟨k, g, s⟩ | ⟨_ | _ | _, gap, inner, closing, span⟩
        · cases k with
          | mark m =>
            cases m with
            | dot =>
              rcases ts with _ | ⟨⟨w | ⟨l, text⟩ | m', g', s'⟩ |
                ⟨_ | _ | _, gap, inner, closing, span⟩, ts⟩
              case cons.leaf.word =>
                have hselector := hgo (.selector e ⟨w, s'⟩ (e.span.through s')) ts (by simp)
                simp only [List.map_cons, Tree.unplaced_leaf, span_unplaced]
                exact hselector
              case cons.group.paren =>
                have htype := hgo (.unsupported (e.span.through span)) ts (by simp)
                simp only [List.map_cons, Tree.unplaced_leaf, Tree.unplaced_group, hI.type,
                  Option.isSome_map, span_unplaced]
                split
                · exact htype
                · rfl
              all_goals rfl
            | _ => rfl
          | _ => rfl
        · simp only [Tree.unplaced_group, hI.args]
          cases I.args inner with
          | none => rfl
          | some args =>
            simp only [Option.map_some]
            have hcall := hgo (.call e args (e.span.through span)) ts (Nat.le_refl _)
            rw [unplaced, unplacedList_eq] at hcall
            rw [span_unplaced]
            exact hcall
        · simp only [Tree.unplaced_group, hI.index, hI.types, isTypeName_unplaced, span_unplaced]
          have hindex : (if I.index inner || (e.isTypeName && I.types inner) then
                some (Expr.unsupported (Span.none.through .none)) else none)
              = (if I.index inner || (e.isTypeName && I.types inner) then
                some (Expr.unsupported (e.span.through span)) else none).map unplaced := by
            split <;> rfl
          rw [hindex]
          generalize (if I.index inner || (e.isTypeName && I.types inner) then
            some (Expr.unsupported (e.span.through span)) else none) = index
          rcases ts with _ | ⟨next, rest⟩
          · cases index <;> rfl
          · simp only [List.map_cons, withTypeArgs_unplaced hI]
            rcases withTypeArgs I p e inner next with _ | _ | e'
            · cases index with
              | none => rfl
              | some e' => exact hgo e' (next :: rest) (Nat.le_refl _)
            · rfl
            · exact hgo e' rest (by simp)
        · simp only [Tree.unplaced_group, hI.literal, isTypeName_unplaced, span_unplaced]
          split
          · simp
          · split
            · exact hgo (.unsupported (e.span.through span)) ts (Nat.le_refl _)
            · rfl

theorem readOperand_placeless (hI : I.Placeless) : Reader.Placeless unplaced (readOperand I p) := by
  intro ts
  induction hn : ts.length using Nat.strongRecOn generalizing ts with
  | ind n ih =>
    rcases ts with _ | ⟨t, ts⟩
    · rfl
    · have hpostfix : ∀ (read : Reader Expr), Reader.Placeless unplaced read → ∀ us,
          ((read (us.map Tree.unplaced)).bind fun q => readPostfix I p q.1 q.2)
            = ((read us).bind fun q => readPostfix I p q.1 q.2).map
                (Prod.map unplaced (List.map Tree.unplaced)) := by
        intro read hread us
        rw [hread]
        rcases read us with _ | ⟨e, rest⟩
        · rfl
        · exact readPostfix_unplaced hI e rest
      have hprefix : ∀ (op : Operator) (us : Forest), us.length ≤ ts.length →
          ((readOperand I p (us.map Tree.unplaced)).map fun q =>
              (Expr.unary op q.1 (t.unplaced.span.through q.1.span), q.2))
            = ((readOperand I p us).map fun q =>
                (Expr.unary op q.1 (t.span.through q.1.span), q.2)).map
                (Prod.map unplaced (List.map Tree.unplaced)) := by
        intro op us hle
        rw [ih us.length (by rw [← hn, List.length_cons]; omega) us rfl]
        refine Reader.map_unplaced (fun e rest => ?_) _
        rw [Tree.span_unplaced, span_unplaced]
        rfl
      have hprimary := hpostfix (readPrimary I p) (readPrimary_placeless hI) (t :: ts)
      unfold readOperand
      simp only [List.map_cons, Tree.operator?_unplaced] at hprimary ⊢
      rcases t.operator? with _ | op
      · exact hprimary
      · cases op
        case less =>
          rcases ts with _ | ⟨dash, ts⟩
          · rfl
          · have htyped := hpostfix (readTyped I) (readTyped_placeless hI) (t :: dash :: ts)
            have hchan := Forest.head?_any_unplaced (Tree.isWord_unplaced "chan") ts
            simp only [List.map_cons, Tree.isOperator_unplaced, Tree.touches_unplaced,
              hchan] at htyped ⊢
            split
            · rfl
            · split
              · exact htyped
              · exact hprefix .arrow ts (by simp)
        all_goals first | exact hprefix _ ts (Nat.le_refl _) | rfl

/-! ## Chains and lists -/

theorem readChain_unplaced (hI : I.Placeless) (e : Expr) (ts : Forest) :
    readChain I p e.unplaced (ts.map Tree.unplaced)
      = (readChain I p e ts).map (Prod.map unplaced (List.map Tree.unplaced)) := by
  induction hn : ts.length using Nat.strongRecOn generalizing e ts with
  | ind n ih =>
    rw [readChain, readBinary_unplaced]
    conv_rhs => rw [readChain]
    rcases readBinary p ts with _ | ⟨op, rest⟩
    · rfl
    · simp only [Option.map_some, Prod.map_apply, readOperand_placeless hI rest]
      rcases readOperand I p rest with _ | ⟨u, rest'⟩
      · rfl
      · simp only [Option.map_some, Prod.map_apply, List.length_map, id, ← extend_unplaced]
        split
        · rename_i hlt
          exact ih _ (hn ▸ hlt) (e.extend op u) rest' rfl
        · rfl

theorem read_placeless (hI : I.Placeless) (p : Place) : Reader.Placeless unplaced (read I p) := by
  intro ts
  rw [read, read, readOperand_placeless hI]
  rcases readOperand I p ts with _ | ⟨e, rest⟩
  · rfl
  · exact readChain_unplaced hI e rest

theorem readList_placeless (hI : I.Placeless) (p : Place) :
    Reader.Placeless (List.map unplaced) (readList I p) := by
  intro ts
  simp only [readList, read_placeless hI p ts]
  rcases read I p ts with _ | ⟨e, _ | ⟨comma, rest⟩⟩
  · rfl
  · rfl
  · simp only [Option.map_some, Prod.map_apply, List.map_cons, Option.bind_eq_bind,
      Option.bind_some, Tree.isMark_unplaced, Tree.onNewLine_unplaced,
      (read_placeless hI _).separated _ _ rest]
    split
    · cases Reader.separated p.line .comma (read I { p with step := false }) rest <;> rfl
    · rfl

/-! ## Contents of brackets -/

theorem readWhole_unplaced (hI : I.Placeless) (ts : Forest) :
    readWhole I (ts.map Tree.unplaced) = (readWhole I ts).map unplaced :=
  (read_placeless hI .inside).whole ts

theorem readArg_unplaced (hI : I.Placeless) (ts : Forest) :
    readArg I (ts.map Tree.unplaced) = (readArg I ts).map unplaced := by
  rw [readArg, readArg, read_placeless hI]
  rcases read I .inside ts with _ | ⟨e, _ | ⟨dots, _ | ⟨t, rest⟩⟩⟩
  · rfl
  · rfl
  · simp only [Option.map_some, Prod.map_apply, List.map_cons, List.map_nil, Tree.isMark_unplaced,
      Tree.span_unplaced, span_unplaced]
    split <;> rfl
  · rfl

theorem readArgs_unplaced (hI : I.Placeless) (ts : Forest) :
    readArgs I (ts.map Tree.unplaced) = (readArgs I ts).map (List.map unplaced) := by
  rw [readArgs, readArgs, Forest.members_unplaced, Forest.mapM_unplaced (readArg_unplaced hI)]

theorem readTypedArgs_unplaced (hI : I.Placeless) (ts : Forest) :
    readTypedArgs I (ts.map Tree.unplaced) = (readTypedArgs I ts).map (List.map unplaced) := by
  rw [readTypedArgs, readTypedArgs, Forest.members_unplaced]
  rcases Forest.members ts with _ | ⟨part, parts⟩
  · rfl
  · simp only [List.map_cons, (TypeExpr.read_placeless hI false).whole,
      Forest.mapM_unplaced (readWhole_unplaced hI)]
    rcases Reader.whole (TypeExpr.read I false) part with _ | type
    · rfl
    · rcases parts.mapM (readWhole I) with _ | args
      · rfl
      · simp [unplaced]

theorem isSome_readWhole_unplaced (hI : I.Placeless) (ts : Forest) :
    (readWhole I (ts.map Tree.unplaced)).isSome = (readWhole I ts).isSome := by
  rw [readWhole_unplaced hI, Option.isSome_map]

theorem readIndex_unplaced (hI : I.Placeless) (ts : Forest) :
    readIndex I (ts.map Tree.unplaced) = readIndex I ts := by
  rw [readIndex, readIndex, Forest.splitOn_unplaced]
  rcases Forest.splitOn .colon ts with _ | ⟨low, _ | ⟨high, _ | ⟨most, _ | ⟨q, parts⟩⟩⟩⟩ <;>
    simp only [List.map_cons, List.map_nil, isSome_readWhole_unplaced hI, List.isEmpty_map]

theorem readElement_unplaced (hI : I.Placeless) (ts : Forest) :
    readElement I (ts.map Tree.unplaced) = readElement I ts := by
  have hwhole := isSome_readWhole_unplaced hI ts
  rcases ts with _ | ⟨⟨l⟩ | ⟨_ | _ | _, gap, inner, closing, span⟩, _ | ⟨t, ts⟩⟩
  case cons.group.brace.nil =>
    rw [List.map_cons, Tree.unplaced_group]
    exact hI.literal inner
  all_goals exact hwhole

/-- An element of a composite literal, perhaps with a key. -/
def readKeyed (I : Interior) (part : Forest) : Bool :=
  match part.splitOn .colon with
  | [value] => readElement I value
  | [key, value] => readElement I key && readElement I value
  | _ => false

theorem readKeyed_unplaced (hI : I.Placeless) (part : Forest) :
    readKeyed I (part.map Tree.unplaced) = readKeyed I part := by
  rw [readKeyed, readKeyed, Forest.splitOn_unplaced]
  rcases Forest.splitOn .colon part with _ | ⟨key, _ | ⟨value, _ | ⟨q, parts⟩⟩⟩ <;>
    simp only [List.map_cons, List.map_nil, readElement_unplaced hI]

theorem readElements_unplaced (hI : I.Placeless) (ts : Forest) :
    readElements I (ts.map Tree.unplaced) = readElements I ts := by
  have hkeyed := Forest.all_unplaced (readKeyed_unplaced hI)
  rw [readElements, readElements, Forest.members_unplaced]
  rcases Forest.members ts with _ | ⟨_ | ⟨t, part⟩, _ | ⟨q, parts⟩⟩
  · rfl
  · rfl
  · exact hkeyed ([] :: q :: parts)
  · exact hkeyed [t :: part]
  · exact hkeyed ((t :: part) :: q :: parts)

end Expr

end Recast
