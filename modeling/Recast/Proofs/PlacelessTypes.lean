import Mathlib.Data.Option.Basic
import Recast.Proofs.PlacelessTrees
import Recast.Proofs.ReadExpr

/-!
# Reading types without places

The readers of types, parameters and fields hand spans on and look at none
(`TypeExpr.read_placeless`, `Param.readAll_unplaced`), if the readers for the contents of brackets
do not.
-/

namespace Recast

@[simp] theorem Span.none_through_none : Span.none.through .none = .none := rfl

variable {I : Interior}

/-! ## Types -/

namespace TypeExpr

variable {line : Bool}

theorem readQualified_unplaced (x : Ident) (ts : Forest) :
    readQualified line x.unplaced (ts.map Tree.unplaced)
      = (readQualified line x ts).map unplaced (List.map Tree.unplaced) := by
  rcases ts with _ | ⟨dot, _ | ⟨t, ts⟩⟩
  · rfl
  · rfl
  · simp only [readQualified, List.map_cons, Tree.ident?_unplaced, Tree.isMark_unplaced,
      Tree.onNewLine_unplaced]
    cases t.ident? with
    | none => rfl
    | some member =>
      simp only [Option.map_some]
      split <;> rfl

theorem readName_unplaced (hI : I.Placeless) (x : Ident) (ts : Forest) :
    readName I line x.unplaced (ts.map Tree.unplaced)
      = (readName I line x ts).map unplaced (List.map Tree.unplaced) := by
  rw [readName_eq, readName_eq, readQualified_unplaced]
  obtain ⟨name, rest⟩ := readQualified line x ts
  rcases rest with _ | ⟨⟨l⟩ | ⟨_ | _ | _, gap, inner, closing, span⟩, rest⟩
  case cons.group.square =>
    simp only [Prod.map_apply, List.map_cons, Tree.unplaced_group, hI.typeArgs]
    split
    · rfl
    · simp
  all_goals rfl

/-- A type that goes on with the type at the head of what follows. -/
theorem prefixed_unplaced (t : Tree) {us : Forest}
    (h : read I line (us.map Tree.unplaced)
      = (read I line us).map (Prod.map unplaced (List.map Tree.unplaced))) :
    ((read I line (us.map Tree.unplaced)).map fun (type, rest) =>
        (unsupported (t.unplaced.span.through type.span), rest))
      = ((read I line us).map fun (type, rest) =>
          (unsupported (t.span.through type.span), rest)).map
          (Prod.map unplaced (List.map Tree.unplaced)) := by
  rw [h]
  refine Reader.map_unplaced (fun type rest => ?_) _
  simp only [Tree.span_unplaced, span_unplaced, Span.none_through_none]
  rfl

/-- A function type, if what is read after its parameters does not depend on spans. -/
theorem read_func_unplaced (hI : I.Placeless) {gap gap' closing : Gap} {span s : Span}
    {params ts : Forest}
    (ih : read I line (ts.map Tree.unplaced)
      = (read I line ts).map (Prod.map unplaced (List.map Tree.unplaced))) :
    read I line ((.leaf ⟨.word "func", gap, span⟩ ::
        .group .paren gap' params closing s :: ts).map Tree.unplaced)
      = (read I line (.leaf ⟨.word "func", gap, span⟩ ::
          .group .paren gap' params closing s :: ts)).map
          (Prod.map unplaced (List.map Tree.unplaced)) := by
  have hgo := prefixed_unplaced (.leaf ⟨.word "func", gap, span⟩) ih
  unfold read
  simp only [List.map_cons, Tree.unplaced_leaf, Tree.unplaced_group, String.reduceBEq,
    Bool.false_eq_true, if_false, if_true, hI.params, Option.isNone_map]
  split
  · rfl
  · rcases ts with _ | ⟨u, rest⟩
    · rfl
    · have hends : (u.unplaced.beginsResult && !(line && u.unplaced.onNewLine))
          = (u.beginsResult && !(line && u.onNewLine)) := by
        rw [Tree.beginsResult_unplaced, Tree.onNewLine_unplaced]
      rcases u with ⟨k, g, s'⟩ | ⟨_ | _ | _, g, results, close, s'⟩
      case group.paren =>
        simp only [List.map_cons, Tree.unplaced_group]
        split
        · simp only [Option.map_some, Prod.map_apply, List.map_cons, Tree.unplaced_group]
          rfl
        · rw [hI.params, Option.isSome_map]
          split <;> rfl
      all_goals
        simp only [List.map_cons, Tree.unplaced_leaf, Tree.unplaced_group] at hends hgo ⊢
        rw [hends]
        split
        · exact hgo
        · simp only [Option.map_some, Prod.map_apply, List.map_cons, Tree.unplaced_leaf,
            Tree.unplaced_group]
          rfl

/-- What is read from a tree and the trees after it, if what is read from some of the latter does
not depend on spans. -/
theorem read_cons_unplaced (hI : I.Placeless) (t : Tree) {ts : Forest}
    (ih : ∀ us : Forest, us.length ≤ ts.length → read I line (us.map Tree.unplaced)
      = (read I line us).map (Prod.map unplaced (List.map Tree.unplaced))) :
    read I line ((t :: ts).map Tree.unplaced)
      = (read I line (t :: ts)).map (Prod.map unplaced (List.map Tree.unplaced)) := by
  have hgo := fun (us : Forest) (hlt : us.length ≤ ts.length) => prefixed_unplaced t (ih us hlt)
  rcases t with ⟨⟨w⟩ | ⟨l, text⟩ | m, gap, span⟩ | ⟨_ | _ | _, gap, inner, closing, span⟩
  case leaf.word =>
    by_cases hfunc : ∃ gap' params closing s us,
        w = "func" ∧ ts = .group .paren gap' params closing s :: us
    · obtain ⟨gap', params, closing, s, us, rfl, rfl⟩ := hfunc
      exact read_func_unplaced hI (ih us (by simp))
    unfold read
    simp only [List.map_cons, Tree.unplaced_leaf]
    by_cases hchan : (w == "chan") = true
    · simp only [if_pos hchan]
      rcases ts with _ | ⟨less, _ | ⟨dash, ts⟩⟩
      · exact hgo [] (Nat.le_refl _)
      · exact hgo [less] (Nat.le_refl _)
      · simp only [List.map_cons, Tree.isOperator_unplaced, Tree.touches_unplaced]
        split
        · exact hgo ts (by simp only [List.length_cons]; omega)
        · exact hgo (less :: dash :: ts) (Nat.le_refl _)
    · simp only [if_neg hchan]
      have hname := @readName_unplaced I line hI ⟨w, span⟩ ts
      rcases ts with _ | ⟨⟨l⟩ | ⟨_ | _ | _, gap', inner, closing, s⟩, ts⟩
      · simp only [List.map_nil]
        split_ifs <;> rfl
      · simp only [List.map_cons]
        split_ifs <;> first | rfl | exact congrArg some hname
      · have hne : w ≠ "func" := fun hw => hfunc ⟨_, _, _, _, _, hw, rfl⟩
        simp only [List.map_cons, Tree.unplaced_group, beq_iff_eq, if_neg hne] at hname ⊢
        split_ifs <;> first | rfl | exact congrArg some hname
      · simp only [List.map_cons, Tree.unplaced_group] at hname ⊢
        split
        · simp only [hI.type, Option.isSome_map]
          split
          · exact hgo ts (by simp)
          · rfl
        · split_ifs <;> first | rfl | exact congrArg some hname
      · simp only [List.map_cons, Tree.unplaced_group, hI.fields, hI.elements] at hname ⊢
        split_ifs <;> first | rfl | exact congrArg some hname
  case leaf.literal => rfl
  case leaf.mark =>
    unfold read
    simp only [List.map_cons, Tree.unplaced_leaf]
    rcases m with op | _ | _ | _ | _ | _ | _ | b | b <;> try rfl
    · cases op <;> try rfl
      · exact hgo ts (Nat.le_refl _)
      · rcases ts with _ | ⟨dash, _ | ⟨chan, ts⟩⟩
        · rfl
        · rfl
        · simp only [List.map_cons, Tree.isOperator_unplaced, Tree.touches_unplaced,
            Tree.isWord_unplaced]
          split
          · exact hgo ts (by simp only [List.length_cons]; omega)
          · rfl
    · exact hgo ts (Nat.le_refl _)
  case group.paren =>
    rw [List.map_cons, Tree.unplaced_group, read, read, hI.type, Option.isSome_map]
    split <;> rfl
  case group.square =>
    simp only [List.map_cons, Tree.unplaced_group] at hgo ⊢
    rw [read, read, hI.expr, Option.isSome_map, List.isEmpty_map]
    split
    · exact hgo ts (Nat.le_refl _)
    · rfl
  case group.brace => rfl

theorem read_placeless (hI : I.Placeless) (line : Bool) :
    Reader.Placeless unplaced (read I line) := by
  intro ts
  induction hn : ts.length using Nat.strongRecOn generalizing ts with
  | ind n ih =>
    cases ts with
    | nil => rfl
    | cons t ts =>
      refine read_cons_unplaced hI t fun us hle => ih us.length ?_ us rfl
      rw [← hn, List.length_cons]
      omega

theorem readUnion_placeless (hI : I.Placeless) (line : Bool) :
    Reader.Placeless id (readUnion I line) := by
  intro ts
  rw [readUnion, readUnion, (read_placeless hI line).separated]
  exact Reader.map_unplaced (fun _ _ => rfl) _

end TypeExpr

/-! ## Parameters -/

namespace Param

def unplaced : Param → Param
  | .bare x => .bare x.unplaced
  | .unnamed type => .unnamed type.unplaced
  | .named x type => .named x.unplaced type.unplaced
  | .variadic x _ => .variadic (x.map Ident.unplaced) .none

theorem variadic?_unplaced (hI : I.Placeless) (x : Option Ident) (t : Tree) (ts : Forest) :
    read?.variadic? I (x.map Ident.unplaced) t.unplaced (ts.map Tree.unplaced)
      = (read?.variadic? I x t ts).map unplaced := by
  rw [read?.variadic?, read?.variadic?, (TypeExpr.read_placeless hI false).whole, Option.map_map,
    Option.map_map]
  refine congrArg (Option.map · _) (funext fun type => ?_)
  simp only [Function.comp_apply, Tree.span_unplaced, TypeExpr.span_unplaced,
    Span.none_through_none]
  rfl

theorem read?_unplaced (hI : I.Placeless) (ts : Forest) :
    read? I (ts.map Tree.unplaced) = (read? I ts).map unplaced := by
  unfold read?
  rw [(TypeExpr.read_placeless hI false).whole]
  rcases Reader.whole (TypeExpr.read I false) ts with _ | ⟨x⟩ | _
  · rcases ts with _ | ⟨t, rest⟩
    · rfl
    · have hword : (Option.map Ident.unplaced t.ident?).filter (fun x => !isTypeWord x.name)
          = (t.ident?.filter fun x => !isTypeWord x.name).map Ident.unplaced :=
        Option.filter_map
      simp only [Option.map_none, List.map_cons, Tree.isMark_unplaced, Tree.ident?_unplaced, hword]
      split
      · exact variadic?_unplaced hI none t rest
      · generalize Option.filter (fun x : Ident => !isTypeWord x.name) t.ident? = x?
        rcases x? with _ | x
        · rfl
        · rcases rest with _ | ⟨u, rest⟩
          · rfl
          · simp only [Option.map_some, List.map_cons, Tree.isMark_unplaced]
            split
            · exact variadic?_unplaced hI (some x) t rest
            · have hwhole := (TypeExpr.read_placeless hI false).whole (u :: rest)
              rw [List.map_cons] at hwhole
              rw [hwhole, Option.map_map, Option.map_map]
              rfl
  · rfl
  · rfl

theorem map_unnamedField_unplaced (words : List Ident) :
    (words.map Ident.unplaced).reverse.map unnamedField
      = (words.reverse.map unnamedField).map Field.unplaced := by
  rw [← List.map_reverse, List.map_map, List.map_map]
  rfl

theorem fields_unplaced (words : List Ident) (ps : List Param) :
    fields (words.map Ident.unplaced) (ps.map unplaced) = (fields words ps).map Field.unplaced := by
  induction ps generalizing words with
  | nil => exact map_unnamedField_unplaced words
  | cons p ps ih =>
    have hwords := map_unnamedField_unplaced words
    have hrest := ih []
    rw [List.map_nil] at hrest
    cases p with
    | bare x => exact ih (x :: words)
    | unnamed type =>
      rw [List.map_cons, unplaced, fields, fields, hwords, hrest, List.map_append, List.map_cons,
        Field.unplaced, TypeExpr.span_unplaced]
      rfl
    | named x type =>
      have hnames : (words.map Ident.unplaced).reverse ++ [x.unplaced]
          = (words.reverse ++ [x]).map Ident.unplaced := by
        rw [← List.map_reverse, List.map_append, List.map_singleton]
      have hhead : (((words.reverse ++ [x]).map Ident.unplaced).headD x.unplaced).span = .none := by
        cases words.reverse <;> rfl
      rw [List.map_cons, unplaced, fields, fields, hnames, hhead, hrest, List.map_cons,
        Field.unplaced, TypeExpr.span_unplaced]
      rfl
    | variadic x span =>
      rw [List.map_cons, unplaced, fields, fields, hwords, hrest, List.map_append, List.map_cons,
        Field.unplaced]
      cases x <;> rfl

theorem readAll_unplaced (hI : I.Placeless) (ts : Forest) :
    readAll I (ts.map Tree.unplaced) = (readAll I ts).map (List.map Field.unplaced) := by
  have hread : ∀ parts : List Forest,
      ((parts.map (List.map Tree.unplaced)).mapM (read? I)).map (fields [])
        = ((parts.mapM (read? I)).map (fields [])).map (List.map Field.unplaced) := by
    intro parts
    rw [Forest.mapM_unplaced (read?_unplaced hI), Option.map_map, Option.map_map]
    exact congrArg (Option.map · _) (funext (fields_unplaced []))
  rw [readAll, readAll, Forest.members_unplaced]
  rcases Forest.members ts with _ | ⟨_ | ⟨t, part⟩, _ | ⟨q, parts⟩⟩
  · rfl
  · rfl
  · exact hread ([] :: q :: parts)
  · exact hread [t :: part]
  · exact hread ((t :: part) :: q :: parts)

end Param

/-! ## Other contents of brackets -/

namespace TypeExpr

theorem readTypes_unplaced (hI : I.Placeless) (ts : Forest) :
    readTypes I (ts.map Tree.unplaced) = readTypes I ts := by
  rw [readTypes, readTypes, List.isEmpty_map, Forest.members_unplaced, Forest.all_unplaced]
  intro part
  rw [(read_placeless hI false).whole, Option.isSome_map]

theorem readTypeArgs_unplaced (hI : I.Placeless) (ts : Forest) :
    readTypeArgs I (ts.map Tree.unplaced) = readTypeArgs I ts := by
  rw [readTypeArgs, readTypeArgs, List.isEmpty_map, Forest.members_unplaced, Forest.all_unplaced]
  intro part
  rw [(readUnion_placeless hI false).whole, Option.isSome_map]

theorem readInstantiated_unplaced (hI : I.Placeless) (ts : Forest) :
    readInstantiated I (ts.map Tree.unplaced) = readInstantiated I ts := by
  induction ts with
  | nil => rfl
  | cons t ts ih =>
    by_cases hparen : ∃ gap inner closing span, t = .group .paren gap inner closing span ∧ ts = []
    · obtain ⟨gap, inner, closing, span, rfl, rfl⟩ := hparen
      simp only [List.map_cons, List.map_nil, Tree.unplaced_group, readInstantiated]
      exact hI.instantiated inner
    · have hwhole := (read_placeless hI false).whole (t :: ts)
      rw [List.map_cons] at hwhole ⊢
      rw [readInstantiated, readInstantiated, Tree.isOperator_unplaced, ih, Tree.ident?_unplaced,
        List.getLast?_map, hwhole, Option.isSome_map]
      · split
        · rfl
        · cases t.ident? with
          | none => rfl
          | some x =>
            rcases ts.getLast? with _ | ⟨k, g, s⟩ | ⟨_ | _ | _, gap, inner, closing, s⟩ <;>
              simp [Ident.unplaced]
      · rintro gap inner closing span rfl rfl
        exact hparen ⟨gap, inner, closing, span, rfl, rfl⟩
      · intro gap inner closing span ht hts
        obtain rfl := List.map_eq_nil_iff.1 hts
        obtain ⟨inner', span', rfl⟩ := Tree.exists_eq_group_of_unplaced ht
        exact hparen ⟨gap, inner', closing, span', rfl, rfl⟩

theorem readTypeParam_unplaced (hI : I.Placeless) (ts : Forest) :
    readTypeParam I (ts.map Tree.unplaced) = readTypeParam I ts := by
  rcases ts with _ | ⟨x, _ | ⟨t, rest⟩⟩
  · rfl
  · simp only [List.map_cons, List.map_nil, readTypeParam, Tree.ident?_unplaced, Option.map_map]
    rfl
  · have hwhole := (readUnion_placeless hI false).whole (t :: rest)
    simp only [List.map_cons] at hwhole ⊢
    simp only [readTypeParam, Tree.ident?_unplaced, hwhole]
    cases x.ident? with
    | none => rfl
    | some y => cases Reader.whole (readUnion I false) (t :: rest) <;> rfl

theorem readTypeParams_unplaced (hI : I.Placeless) (ts : Forest) :
    readTypeParams I (ts.map Tree.unplaced) = readTypeParams I ts := by
  have hread : ∀ part,
      readTypeParam I (part.map Tree.unplaced) = (readTypeParam I part).map id := by
    intro part
    rw [readTypeParam_unplaced hI, Option.map_id, id]
  rw [readTypeParams, readTypeParams, Forest.members_unplaced, Forest.mapM_unplaced hread]
  cases (Forest.members ts).mapM (readTypeParam I) with
  | none => rfl
  | some constrained => simp only [Option.map_some, List.map_id]

theorem skipTag_unplaced (ts : Forest) :
    skipTag (ts.map Tree.unplaced) = (skipTag ts).map Tree.unplaced := by
  cases ts with
  | nil => rfl
  | cons t ts =>
    rw [List.map_cons, skipTag, skipTag, Tree.isString_unplaced, Tree.onNewLine_unplaced]
    split <;> rfl

theorem readFieldNames_placeless : Reader.Placeless id readFieldNames := by
  intro ts
  induction hn : ts.length using Nat.strongRecOn generalizing ts with
  | ind n ih =>
    rcases ts with _ | ⟨x, _ | ⟨comma, ts⟩⟩
    · rfl
    · simp only [List.map_cons, List.map_nil, readFieldNames, Tree.ident?_unplaced,
        Option.isNone_map]
      split <;> rfl
    · simp only [List.map_cons, readFieldNames, Tree.ident?_unplaced, Option.isNone_map,
        Tree.isMark_unplaced]
      split
      · rfl
      · split
        · rw [ih ts.length (hn ▸ by simp only [List.length_cons]; omega) ts rfl, Option.map_map,
            Option.map_map]
          rfl
        · rfl

theorem readEmbedded_unplaced (hI : I.Placeless) (ts : Forest) :
    readEmbedded I (ts.map Tree.unplaced) = (readEmbedded I ts).map (List.map Tree.unplaced) := by
  have hname : ∀ (t : Tree) (us : Forest),
      (t.ident?.map Ident.unplaced).map (fun x => (readName I true x (us.map Tree.unplaced)).2)
        = (t.ident?.map fun x => (readName I true x us).2).map (List.map Tree.unplaced) := by
    intro t us
    cases t.ident? with
    | none => rfl
    | some x => exact congrArg (fun p => some p.2) (readName_unplaced hI x us)
  rcases ts with _ | ⟨star, ts⟩
  · rfl
  · simp only [readEmbedded, List.map_cons, Tree.isOperator_unplaced]
    by_cases hstar : star.isOperator .mul = true
    · simp only [if_pos hstar]
      rcases ts with _ | ⟨t, ts⟩
      · rfl
      · simp only [List.map_cons, Tree.ident?_unplaced]
        exact hname t ts
    · simp only [if_neg hstar, Tree.ident?_unplaced]
      exact hname star ts

theorem readField_placeless (hI : I.Placeless) : Reader.Placeless id (readField I) := by
  intro ts
  have hembedded : (readEmbedded I (ts.map Tree.unplaced)).map (fun rest => ((), skipTag rest))
      = ((readEmbedded I ts).map fun rest => ((), skipTag rest)).map
          (Prod.map id (List.map Tree.unplaced)) := by
    rw [readEmbedded_unplaced hI, Option.map_map, Option.map_map]
    refine congrArg (Option.map · _) (funext fun rest => ?_)
    rw [Function.comp_apply, skipTag_unplaced]
    rfl
  simp only [readField, hembedded, Option.orElse_eq_orElse, Option.orElse_eq_or, Option.map_or]
  refine congrArg₂ Option.or ?_ rfl
  rw [readFieldNames_placeless]
  rcases readFieldNames ts with _ | ⟨several, rest⟩
  · rfl
  · simp only [Option.map_some, Prod.map_apply, Option.bind_eq_bind, Option.bind_some,
      Forest.ends_unplaced, id]
    by_cases hb : (several || !rest.ends true) = true
    · simp only [guard, if_pos hb, read_placeless hI true rest]
      rcases read I true rest with _ | ⟨type, rest'⟩
      · rfl
      · exact congrArg (fun ts => some ((), ts)) (skipTag_unplaced rest')
    · simp only [guard, if_neg hb]
      rfl

theorem readElement_placeless (hI : I.Placeless) : Reader.Placeless id (readElement I) := by
  intro ts
  have hunion := readUnion_placeless hI true ts
  rcases ts with _ | ⟨x, _ | ⟨⟨l⟩ | ⟨_ | _ | _, gap, params, close, s⟩, ts⟩⟩
  case cons.cons.group.paren =>
    have hfunc := read_placeless hI true
      (.leaf ⟨.word "func", x.gap, x.span⟩ :: .group .paren gap params close s :: ts)
    simp only [readElement, List.map_cons, Tree.unplaced_leaf, Tree.unplaced_group,
      Tree.ident?_unplaced, Tree.gap_unplaced, Tree.span_unplaced] at hfunc hunion ⊢
    cases x.ident? with
    | none => exact hunion
    | some y =>
      simp only [Option.map_some, Ident.unplaced]
      split
      · exact hunion
      · rw [hfunc]
        exact Reader.map_unplaced (fun _ _ => rfl) _
  all_goals exact hunion

end TypeExpr

end Recast
