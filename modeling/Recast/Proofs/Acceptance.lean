import Recast.Proofs.Trace
import Recast.Proofs.Checks

/-!
# Acceptance

Under the isolated policy a function is lowered just if it is supported (`lower_isolated_iff`). A
statement checks what holds inside it whatever is known around it, since its levels start without
names; only for its own names does it look at the level where it stands.
-/

namespace Recast

variable {src : Source}

/-! ## Statements and blocks -/

theorem Stmt.lower_ret_checks {results : List Expr} {span : Span}
    (hs : src.Slices (Expr.listSpans results)) :
    Checks ((Stmt.ret results span).lower src)
      (fun _ => results.length ≤ 1 ∧ ∀ e ∈ results, e.Acceptable) [] := by
  rw [Stmt.lower.eq_def]
  rcases results with _ | ⟨v, _ | ⟨w, rest⟩⟩
  · exact (Checks.pure _).congr fun seen => by simp
  · rw [Expr.listSpans, Source.slices_append] at hs
    have h := (Lowering.expr_checks hs.1).map fun x => Target.Stmt.ret (some x)
    exact h.congr fun seen => by simp
  · exact Checks.reject.congr fun seen => by simp

theorem Stmt.lower_simple_checks {s : Stmt} (hi : s.isSimple = true)
    (hs : src.Slices s.spans) :
    Checks (Target.Stmt.simple <$> s.lowerSimple src)
      (fun seen => s.Fresh seen ∧ Inside [s] []) s.introduced :=
  ((Stmt.lowerSimple_checks hs).map _).congr fun seen => by
    rw [Inside.singleton_iff, and_iff_right hi, and_comm]

mutual

theorem Stmt.lower_checks : ∀ (s : Stmt), src.Slices s.spans →
    Checks (s.lower src) (fun seen => s.Fresh seen ∧ Inside s.nested s.levels) s.introduced
  | .ret results span, hs => by
    rw [Stmt.spans, Source.slices_cons] at hs
    refine (Stmt.lower_ret_checks hs.2).congr fun seen => ?_
    rw [Stmt.nested, Stmt.levels, Inside.singleton_iff, Stmt.Fresh, true_and, Stmt.Regular]
  | .assign lhs op rhs span, hs => by
    rw [Stmt.lower, Stmt.nested, Stmt.levels]
    exact Stmt.lower_simple_checks rfl hs
  | .decl kind specs span, hs => by
    rw [Stmt.lower, Stmt.nested, Stmt.levels]
    exact Stmt.lower_simple_checks rfl hs
  | .step operand op span, hs => by
    rw [Stmt.lower, Stmt.nested, Stmt.levels]
    exact Stmt.lower_simple_checks rfl hs
  | .cond init test body other span, hs => by
    simp only [Stmt.spans, Source.slices_cons, Source.slices_append] at hs
    obtain ⟨-, ⟨⟨hi, ht⟩, hb⟩, ho⟩ := hs
    have hb := fun init' test' => (Block.lower_checks body hb).both
      (Stmt.lowerOther_checks other ho) (Target.Stmt.cond init' test')
    have h := (optionSimple_checks hi).bind fun init' =>
      (Lowering.expr_checks ht).andThen (hb init')
    rw [Stmt.lower]
    refine h.inChild.congr fun seen => ?_
    rw [Inside.cond_iff, Stmt.Fresh, true_and]
  | .loop init test post body span, hs => by
    simp only [Stmt.spans, Source.slices_cons, Source.slices_append] at hs
    obtain ⟨-, ⟨⟨hi, ht⟩, hp⟩, hb⟩ := hs
    have hb := fun init' test' => (optionSimple_checks hp).both (Block.lower_checks body hb)
      fun post' body' => Target.Stmt.loop init' test' (post'.getD []) body'
    have h := (optionSimple_checks hi).bind fun init' =>
      (Lowering.optionExpr_checks ht).andThen (hb (init'.getD []))
    rw [Stmt.lower]
    refine h.inChild.congr fun seen => ?_
    rw [Inside.loop_iff, Stmt.Fresh, true_and]
  | .block body, hs => by
    have h := (Block.lower_checks body hs).map Target.Stmt.block
    rw [Stmt.lower]
    refine h.congr fun seen => ?_
    rw [Stmt.nested, Stmt.levels, Stmt.Fresh, true_and, Inside.block_iff]
  | .unsupported span, hs => by
    rw [Stmt.lower, Stmt.nested, Stmt.levels]
    refine Checks.reject.congr fun seen => ?_
    rw [Inside.singleton_iff, Stmt.Regular, and_false]

theorem Stmt.lowerOther_checks : ∀ (other : Option Stmt), src.Slices (Stmt.optionSpans other) →
    Checks (Stmt.lowerOther src other)
      (fun _ => (∀ s ∈ other, s.isBranch = true) ∧
        Inside (Stmt.otherNested other) (Stmt.otherLevels other)) []
  | none, hs => by
    rw [Stmt.lowerOther, Stmt.otherNested, Stmt.otherLevels]
    exact (Checks.pure _).congr fun seen => by simp [Inside.nil]
  | some (.block body), hs => by
    have h := (Block.lower_checks body hs).map Target.Branch.block
    rw [Stmt.lowerOther]
    refine h.congr fun seen => ?_
    rw [Stmt.otherNested, Stmt.otherLevels, Stmt.nested, Stmt.levels, Inside.block_iff]
    simp [Stmt.isBranch]
  | some (.cond none test body other span), hs => by
    simp only [Stmt.optionSpans, Stmt.spans, Source.slices_cons, Source.slices_append] at hs
    obtain ⟨-, ⟨⟨-, ht⟩, hb⟩, ho⟩ := hs
    have hb := fun test' => (Block.lower_checks body hb).both
      (Stmt.lowerOther_checks other ho) (Target.Branch.chain test')
    have h := (Lowering.expr_checks ht).andThen hb
    rw [Stmt.lowerOther]
    refine h.congr fun seen => ?_
    rw [Stmt.otherNested, Stmt.otherLevels, Inside.cond_iff]
    simp [Stmt.isBranch]
  | some (.cond (some init) test body other span), hs => by
    simp only [Stmt.optionSpans, Stmt.spans, Source.slices_cons, Source.slices_append] at hs
    obtain ⟨-, ⟨⟨hi, ht⟩, hb⟩, ho⟩ := hs
    have hb := fun init' test' => (Block.lower_checks body hb).both
      (Stmt.lowerOther_checks other ho) (Target.Branch.wrapped init' test')
    have h := (Stmt.lowerSimple_checks hi).bind fun init' =>
      (Lowering.expr_checks ht).andThen (hb init')
    rw [Stmt.lowerOther]
    refine h.inChild.congr fun seen => ?_
    rw [Stmt.otherNested, Stmt.otherLevels, Inside.cond_iff]
    simp [Stmt.isBranch]
  | some (.ret ..), hs | some (.assign ..), hs | some (.decl ..), hs
  | some (.step ..), hs | some (.loop ..), hs | some (.unsupported _), hs =>
    (Checks.fails fun _ _ _ h => absurd h Lowering.reject_ok).congr fun seen => by
      simp [Stmt.isBranch]

theorem Stmt.lowerList_checks : ∀ (ss : List Stmt), src.Slices (Stmt.listSpans ss) →
    Checks (Stmt.lowerList src ss)
      (fun seen => LevelFits seen ss ∧ Inside (Stmt.listNested ss) (Stmt.listLevels ss))
      (ss.flatMap Stmt.introduced)
  | [], hs => by
    rw [Stmt.lowerList, Stmt.listNested, Stmt.listLevels]
    exact (Checks.pure _).congr fun seen => by simp [Inside.nil, LevelFits]
  | s :: ss, hs => by
    rw [Stmt.listSpans, Source.slices_append] at hs
    have h := (Stmt.lower_checks s hs.1).both (Stmt.lowerList_checks ss hs.2) List.cons
    rw [Stmt.lowerList]
    refine h.congr fun seen => ?_
    rw [Stmt.listNested, Stmt.listLevels, Inside.append_iff, LevelFits, and_and_and_comm]

theorem Block.lower_checks : ∀ (b : Block), src.Slices b.spans →
    Checks (b.lower src) (fun _ => Inside b.nested b.levels) []
  | .mk ss span, hs => by
    rw [Block.spans, Source.slices_cons] at hs
    rw [Block.lower, Block.nested, Block.levels]
    exact (Stmt.lowerList_checks ss hs.2).inChild.congr fun seen => Inside.level_iff.symm

end

/-! ## Functions -/

theorem lowerParamNames_checks (type : Primitive) (names : List Ident) :
    Checks (lowerParamNames type names) (fun seen => New seen (Ident.visible names))
      (Ident.visible names) := by
  induction names with
  | nil => exact (Checks.pure _).congr fun seen => by simp [Ident.visible, New.nil]
  | cons x names ih =>
    rw [Ident.visible_cons]
    have h := (Lowering.declare_checks x).both ih fun _ params => (type, x.name) :: params
    exact h.congr fun seen => New.append_iff.symm

theorem Field.lowerParam_checks (field : Field) :
    Checks (field.lowerParam src)
      (fun seen => (field.type.Mapped ∧ field.names ≠ []) ∧ New seen (Ident.visible field.names))
      (Ident.visible field.names) := by
  have h : ∀ type, Checks
      (if field.names.isEmpty then Lowering.reject src .missingParameterName field.span
        else lowerParamNames type field.names)
      (fun seen => field.names ≠ [] ∧ New seen (Ident.visible field.names))
      (Ident.visible field.names) := by
    intro type
    by_cases hn : field.names = []
    · rw [if_pos (by simpa using hn)]
      exact Checks.reject.congr fun seen => by simp [hn]
    · rw [if_neg (by simpa using hn)]
      exact (lowerParamNames_checks type field.names).congr fun seen => by simp [hn]
  refine ((Checks.lift _).andThen h).congr fun seen => ?_
  rw [TypeExpr.lower_ok_iff, and_assoc]

theorem lowerParams_checks (src : Source) (fields : List Field) :
    Checks (lowerParams src fields)
      (fun seen => (∀ field ∈ fields, field.type.Mapped ∧ field.names ≠ []) ∧
        New seen (Ident.visible (fields.flatMap Field.names)))
      (Ident.visible (fields.flatMap Field.names)) := by
  induction fields with
  | nil => exact (Checks.pure _).congr fun seen => by simp [Ident.visible, New.nil]
  | cons field fields ih =>
    rw [List.flatMap_cons, Ident.visible_append]
    refine (field.lowerParam_checks.both ih (· ++ ·)).congr fun seen => ?_
    rw [New.append_iff, List.forall_mem_cons, and_and_and_comm]

/-- A list that stands for at most one value has at most one field. -/
theorem FieldList.fields_of_arity {r : FieldList} (h : r.arity ≤ 1) :
    r.fields = [] ∨ ∃ field, r.fields = [field] := by
  obtain ⟨fields, span⟩ := r
  rcases fields with _ | ⟨f, _ | ⟨g, rest⟩⟩
  · exact .inl rfl
  · exact .inr ⟨f, rfl⟩
  · have hf : 1 ≤ f.arity := Nat.le_max_right _ _
    have hg : 1 ≤ g.arity := Nat.le_max_right _ _
    simp only [FieldList.arity, List.foldr_cons] at h
    omega

theorem FieldList.lowerResult_ok_iff (r : FieldList) :
    (∃ t, r.lowerResult src = .ok t) ↔
      r.arity ≤ 1 ∧ ∀ field ∈ r.fields, field.type.Mapped := by
  unfold FieldList.lowerResult
  by_cases ha : r.arity > 1
  · rw [if_pos ha]
    have hn : ¬ r.arity ≤ 1 := by omega
    simp [hn]
  · rw [if_neg ha]
    have hl : r.arity ≤ 1 := by omega
    rw [and_iff_right hl]
    rcases FieldList.fields_of_arity hl with h | ⟨field, h⟩
    · simp [h]
    · rw [h, List.forall_mem_singleton, ← TypeExpr.lower_ok_iff src]
      exact except_map_ok

theorem optionResult_ok_iff (r : Option FieldList) :
    (∃ t, r.elim (.ok none) (FieldList.lowerResult src) = .ok t) ↔
      (∀ s ∈ r, s.arity ≤ 1) ∧ ∀ s ∈ r, ∀ field ∈ s.fields, field.type.Mapped := by
  cases r with
  | none => simp
  | some r => simpa using r.lowerResult_ok_iff

theorem optionBody_checks {b : Option Block} (hs : src.Slices (b.elim [] Block.spans)) :
    Checks (b.elim (pure []) (Block.lower src)) (fun _ => ∀ c ∈ b, Inside c.nested c.levels)
      [] := by
  cases b with
  | none => exact (Checks.pure _).congr fun seen => by simp
  | some b => exact (Block.lower_checks b hs).congr fun seen => by simp

theorem Func.lowerParts_checks {f : Func} (hs : src.Slices f.spans) :
    Checks (f.lowerParts src)
      (fun seen => ((∀ r ∈ f.results, r.arity ≤ 1) ∧
          ∀ r ∈ f.results, ∀ field ∈ r.fields, field.type.Mapped) ∧
        ((∀ field ∈ f.params.fields, field.type.Mapped ∧ field.names ≠ []) ∧
          New seen (Ident.visible (f.params.fields.flatMap Field.names))) ∧
        ∀ b ∈ f.body, Inside b.nested b.levels)
      (Ident.visible (f.params.fields.flatMap Field.names)) := by
  simp only [Func.spans, Source.slices_cons, Source.slices_append] at hs
  have hb := fun result => (lowerParams_checks src f.params.fields).both
    (optionBody_checks hs.2.2.2) fun params body => Target.Func.mk result f.name.name params body
  have h := (Checks.lift (f.results.elim (.ok none) (FieldList.lowerResult src))).andThen hb
  rw [List.append_nil] at h
  refine h.congr fun seen => ?_
  rw [optionResult_ok_iff]

/-- **Acceptance is support.** Under the isolated policy, a function all of whose spans are ranges
of the source is lowered just if it is supported. -/
theorem lower_isolated_iff {src : Source} {f : Func} (hs : src.Slices f.spans) :
    (∃ l, f.lower src .isolated = .ok l) ↔ f.Supported := by
  have hp : Progress.Isolated ⟨.root .isolated, []⟩ := ⟨rfl, rfl⟩
  have hk : Progress.known ⟨.root .isolated, []⟩ = ∅ := by simp [Progress.known, Scope.root]
  have hc := (Func.lowerParts_checks hs).iff hp
  rw [hk] at hc
  have hl : (∃ l, f.lower src .isolated = .ok l) ↔
      ∃ t q, (f.lowerParts src).runFrom ⟨.root .isolated, []⟩ = (.ok t, q) := by
    simp only [Func.lower_ok]
    constructor
    · intro h
      obtain ⟨l, q, h, -⟩ := h
      exact ⟨l.func, q, h⟩
    · intro h
      obtain ⟨t, q, h⟩ := h
      exact ⟨⟨t, q.lost⟩, q, h, rfl⟩
  rw [hl, hc]
  constructor
  · intro h
    obtain ⟨⟨ha, hr⟩, ⟨hp, hd⟩, hb⟩ := h
    exact ⟨ha, hr, hp, hd.nodup, fun b h => (hb b h).regular, fun b h => (hb b h).fits⟩
  · intro h
    exact ⟨⟨h.arity, h.result⟩, ⟨h.params, h.distinct, by simp⟩,
      fun b hb => ⟨h.statements b hb, h.levels b hb⟩⟩

/-- Levels are apart, so `x` may be declared in the `if` again. -/
theorem lower_isolated_iff_nested :
    Source.Slices ⟨""⟩ Func.nested.spans ∧ Func.nested.Supported ∧
      ∃ l, Func.nested.lower ⟨""⟩ .isolated = .ok l := by
  have hs : Source.Slices ⟨""⟩ Func.nested.spans := by
    unfold Source.Slices
    decide
  have hl : ∃ l, Func.nested.lower ⟨""⟩ .isolated = .ok l := ⟨_, rfl⟩
  exact ⟨hs, (lower_isolated_iff hs).1 hl, hl⟩

end Recast
