import Recast.Proofs.Supported

/-!
# Trees up to their places

A tree with all its spans left out (`Func.unplaced`), so that two trees are equal up to spans if
they are equal without them. Such trees have as many spans, and as many calls, and the same ones
stand in the same places of `Func.spans` and `Func.calls`: a span and the one in its place are
those of the same node (`Span.Abreast`).
-/

namespace Recast

/-! ## Without spans -/

def Ident.unplaced (x : Ident) : Ident := ⟨x.name, .none⟩

def TypeExpr.unplaced : TypeExpr → TypeExpr
  | .named x => .named x.unplaced
  | .unsupported _ => .unsupported .none

mutual

/-- An expression with all its spans left out. -/
def Expr.unplaced : Expr → Expr
  | .literal t _ => .literal t .none
  | .name x => .name ⟨x.name, .none⟩
  | .binary op l r _ => .binary op l.unplaced r.unplaced .none
  | .unary op e _ => .unary op e.unplaced .none
  | .paren e _ => .paren e.unplaced .none
  | .call callee args _ => .call callee.unplaced (unplacedList args) .none
  | .selector e field _ => .selector e.unplaced ⟨field.name, .none⟩ .none
  | .unsupported _ => .unsupported .none

def Expr.unplacedList : List Expr → List Expr
  | [] => []
  | e :: es => e.unplaced :: unplacedList es

end

def ValueSpec.unplaced (spec : ValueSpec) : ValueSpec :=
  ⟨spec.names.map Ident.unplaced, spec.type.map TypeExpr.unplaced, Expr.unplacedList spec.values,
    .none⟩

mutual

/-- A statement with all its spans left out. -/
def Stmt.unplaced : Stmt → Stmt
  | .ret results _ => .ret (Expr.unplacedList results) .none
  | .assign lhs op rhs _ => .assign (Expr.unplacedList lhs) op (Expr.unplacedList rhs) .none
  | .decl kind specs _ => .decl kind (specs.map ValueSpec.unplaced) .none
  | .step operand op _ => .step operand.unplaced op .none
  | .cond init test body other _ =>
    .cond (Stmt.unplacedOption init) test.unplaced body.unplaced (Stmt.unplacedOption other) .none
  | .loop init test post body _ =>
    .loop (Stmt.unplacedOption init) (test.map Expr.unplaced) (Stmt.unplacedOption post)
      body.unplaced .none
  | .block body => .block body.unplaced
  | .unsupported _ => .unsupported .none
termination_by structural s => s

def Stmt.unplacedOption : Option Stmt → Option Stmt
  | none => none
  | some s => some s.unplaced
termination_by structural s => s

def Stmt.unplacedList : List Stmt → List Stmt
  | [] => []
  | s :: ss => s.unplaced :: Stmt.unplacedList ss
termination_by structural ss => ss

def Block.unplaced : Block → Block
  | .mk ss _ => .mk (Stmt.unplacedList ss) .none
termination_by structural b => b

end

def Field.unplaced (field : Field) : Field :=
  ⟨field.names.map Ident.unplaced, field.type.unplaced, .none⟩

def FieldList.unplaced (fs : FieldList) : FieldList := ⟨fs.fields.map Field.unplaced, .none⟩

/-- A function with all its spans left out. -/
def Func.unplaced (f : Func) : Func :=
  ⟨f.name.unplaced, f.params.unplaced, f.results.map FieldList.unplaced,
    f.body.map Block.unplaced, .none⟩

/-! ## Calls -/

mutual

/-- The spans of the calls in an expression, at every depth. -/
def Expr.calls : Expr → List Span
  | .literal .. | .name _ | .unsupported _ => []
  | .binary _ l r _ => l.calls ++ r.calls
  | .unary _ e _ | .paren e _ | .selector e _ _ => e.calls
  | .call callee args span => span :: (callee.calls ++ Expr.listCalls args)
termination_by structural e => e

def Expr.listCalls : List Expr → List Span
  | [] => []
  | e :: es => e.calls ++ Expr.listCalls es
termination_by structural es => es

end

mutual

/-- The spans of the calls in a statement, in the order of `Stmt.spans`. -/
def Stmt.calls : Stmt → List Span
  | .ret results _ => Expr.listCalls results
  | .assign lhs _ rhs _ => Expr.listCalls lhs ++ Expr.listCalls rhs
  | .decl _ specs _ => specs.flatMap fun spec => Expr.listCalls spec.values
  | .step operand _ _ => operand.calls
  | .cond init test body other _ =>
    Stmt.optionCalls init ++ test.calls ++ body.calls ++ Stmt.optionCalls other
  | .loop init test post body _ =>
    Stmt.optionCalls init ++ test.elim [] Expr.calls ++ Stmt.optionCalls post ++ body.calls
  | .block body => body.calls
  | .unsupported _ => []
termination_by structural s => s

def Stmt.optionCalls : Option Stmt → List Span
  | none => []
  | some s => s.calls
termination_by structural s => s

def Stmt.listCalls : List Stmt → List Span
  | [] => []
  | s :: ss => s.calls ++ Stmt.listCalls ss
termination_by structural ss => ss

def Block.calls : Block → List Span
  | .mk ss _ => Stmt.listCalls ss
termination_by structural b => b

end

/-- The spans of the calls in a function, at every depth. -/
def Func.calls (f : Func) : List Span := f.body.elim [] Block.calls

/-! ## Spans in the same places -/

/-- Spans in the same places of two lists are related. -/
def Span.Abreast (R : Span → Span → Prop) (xs ys : List Span) : Prop :=
  ∀ s t, (s, t) ∈ xs.zip ys → R s t

namespace Span.Abreast

variable {R : Span → Span → Prop} {xs ys us vs : List Span}

theorem cons_iff {x y : Span} : Abreast R (x :: xs) (y :: ys) ↔ R x y ∧ Abreast R xs ys := by
  unfold Abreast
  rw [List.zip_cons_cons]
  constructor
  · intro h
    exact ⟨h x y List.mem_cons_self, fun s t hst => h s t (List.mem_cons_of_mem _ hst)⟩
  · rintro ⟨hxy, h⟩ s t hst
    rcases List.mem_cons.1 hst with e | hst
    · cases e
      exact hxy
    · exact h s t hst

theorem append_iff (hl : xs.length = ys.length) :
    Abreast R (xs ++ us) (ys ++ vs) ↔ Abreast R xs ys ∧ Abreast R us vs := by
  unfold Abreast
  rw [List.zip_append hl]
  constructor
  · intro h
    exact ⟨fun s t hst => h s t (List.mem_append_left _ hst),
      fun s t hst => h s t (List.mem_append_right _ hst)⟩
  · rintro ⟨h, k⟩ s t hst
    exact (List.mem_append.1 hst).elim (h s t) (k s t)

/-- A list beside itself. -/
theorem self (hR : ∀ s, R s s) (xs : List Span) : Abreast R xs xs := by
  intro s t hst
  induction xs with
  | nil => cases hst
  | cons x xs ih =>
    rw [List.zip_cons_cons] at hst
    rcases List.mem_cons.1 hst with e | hst
    · cases e
      exact hR _
    · exact ih hst

end Span.Abreast

/-! ## As many spans, as many calls -/

/-- Two trees have as many spans and as many calls. -/
structure SameCounts (spans spans' calls calls' : List Span) : Prop where
  spans : spans.length = spans'.length
  calls : calls.length = calls'.length

theorem SameCounts.trans {xs ys zs us vs ws : List Span} (h : SameCounts xs ys us vs)
    (k : SameCounts ys zs vs ws) : SameCounts xs zs us ws :=
  ⟨h.spans.trans k.spans, h.calls.trans k.calls⟩

theorem SameCounts.symm {xs ys us vs : List Span} (h : SameCounts xs ys us vs) :
    SameCounts ys xs vs us :=
  ⟨h.spans.symm, h.calls.symm⟩

mutual

theorem Expr.counts_unplaced : ∀ e : Expr,
    SameCounts e.unplaced.spans e.spans e.unplaced.calls e.calls
  | .literal .. | .name _ | .unsupported _ => ⟨rfl, rfl⟩
  | .binary _ l r _ => by
    obtain ⟨hl, kl⟩ := counts_unplaced l
    obtain ⟨hr, kr⟩ := counts_unplaced r
    constructor
    · simp [unplaced, spans, hl, hr]
    · simp [unplaced, calls, kl, kr]
  | .unary _ e _ | .paren e _ | .selector e _ _ => by
    obtain ⟨h, k⟩ := counts_unplaced e
    constructor
    · simp [unplaced, spans, h]
    · simp [unplaced, calls, k]
  | .call callee args _ => by
    obtain ⟨hc, kc⟩ := counts_unplaced callee
    obtain ⟨ha, ka⟩ := counts_unplacedList args
    constructor
    · simp [unplaced, spans, hc, ha]
    · simp [unplaced, calls, kc, ka]

theorem Expr.counts_unplacedList : ∀ es : List Expr,
    SameCounts (listSpans (unplacedList es)) (listSpans es) (listCalls (unplacedList es))
      (listCalls es)
  | [] => ⟨rfl, rfl⟩
  | e :: es => by
    obtain ⟨h, k⟩ := counts_unplaced e
    obtain ⟨hs, ks⟩ := counts_unplacedList es
    constructor
    · simp [unplacedList, listSpans, h, hs]
    · simp [unplacedList, listCalls, k, ks]

end

theorem ValueSpec.counts_unplaced (spec : ValueSpec) :
    SameCounts spec.unplaced.spans spec.spans (Expr.listCalls spec.unplaced.values)
      (Expr.listCalls spec.values) := by
  obtain ⟨h, k⟩ := Expr.counts_unplacedList spec.values
  refine ⟨?_, k⟩
  cases ht : spec.type with
  | none => simp [unplaced, spans, ht, h]
  | some t => simp [unplaced, spans, ht, h]

mutual

theorem Stmt.counts_unplaced : ∀ s : Stmt,
    SameCounts s.unplaced.spans s.spans s.unplaced.calls s.calls
  | .ret results _ => by
    obtain ⟨h, k⟩ := Expr.counts_unplacedList results
    exact ⟨congrArg (· + 1) h, k⟩
  | .assign lhs _ rhs _ => by
    obtain ⟨hl, kl⟩ := Expr.counts_unplacedList lhs
    obtain ⟨hr, kr⟩ := Expr.counts_unplacedList rhs
    constructor
    · simp [Stmt.unplaced, Stmt.spans, hl, hr]
    · simp [Stmt.unplaced, Stmt.calls, kl, kr]
  | .decl _ specs _ => by
    constructor
    · simp [Stmt.unplaced, Stmt.spans, List.length_flatMap, Function.comp_def,
        (ValueSpec.counts_unplaced _).spans]
    · simp [Stmt.unplaced, Stmt.calls, List.length_flatMap, Function.comp_def,
        (ValueSpec.counts_unplaced _).calls]
  | .step operand _ _ => by
    obtain ⟨h, k⟩ := Expr.counts_unplaced operand
    exact ⟨congrArg (· + 1) h, k⟩
  | .cond init test body other _ => by
    obtain ⟨hi, ki⟩ := Stmt.counts_unplacedOption init
    obtain ⟨ht, kt⟩ := Expr.counts_unplaced test
    obtain ⟨hb, kb⟩ := Block.counts_unplaced body
    obtain ⟨ho, ko⟩ := Stmt.counts_unplacedOption other
    constructor
    · simp [Stmt.unplaced, Stmt.spans, hi, ht, hb, ho]
    · simp [Stmt.unplaced, Stmt.calls, ki, kt, kb, ko]
  | .loop init test post body _ => by
    obtain ⟨hi, ki⟩ := Stmt.counts_unplacedOption init
    obtain ⟨hp, kp⟩ := Stmt.counts_unplacedOption post
    obtain ⟨hb, kb⟩ := Block.counts_unplaced body
    constructor
    · cases test <;> simp [Stmt.unplaced, Stmt.spans, hi, hp, hb, (Expr.counts_unplaced _).spans]
    · cases test <;> simp [Stmt.unplaced, Stmt.calls, ki, kp, kb, (Expr.counts_unplaced _).calls]
  | .block body => Block.counts_unplaced body
  | .unsupported _ => ⟨rfl, rfl⟩

theorem Stmt.counts_unplacedOption : ∀ s : Option Stmt,
    SameCounts (Stmt.optionSpans (Stmt.unplacedOption s)) (Stmt.optionSpans s)
      (Stmt.optionCalls (Stmt.unplacedOption s)) (Stmt.optionCalls s)
  | none => ⟨rfl, rfl⟩
  | some s => Stmt.counts_unplaced s

theorem Stmt.counts_unplacedList : ∀ ss : List Stmt,
    SameCounts (Stmt.listSpans (Stmt.unplacedList ss)) (Stmt.listSpans ss)
      (Stmt.listCalls (Stmt.unplacedList ss)) (Stmt.listCalls ss)
  | [] => ⟨rfl, rfl⟩
  | s :: ss => by
    obtain ⟨h, k⟩ := Stmt.counts_unplaced s
    obtain ⟨hs, ks⟩ := Stmt.counts_unplacedList ss
    constructor
    · simp [Stmt.unplacedList, Stmt.listSpans, h, hs]
    · simp [Stmt.unplacedList, Stmt.listCalls, k, ks]

theorem Block.counts_unplaced : ∀ b : Block,
    SameCounts b.unplaced.spans b.spans b.unplaced.calls b.calls
  | .mk ss _ => by
    obtain ⟨h, k⟩ := Stmt.counts_unplacedList ss
    exact ⟨congrArg (· + 1) h, k⟩

end

theorem Field.length_spans_unplaced (field : Field) :
    field.unplaced.spans.length = field.spans.length := by
  simp [unplaced, spans]

theorem FieldList.length_spans_unplaced (fs : FieldList) :
    fs.unplaced.spans.length = fs.spans.length := by
  simp [unplaced, spans, List.length_flatMap, Function.comp_def, Field.length_spans_unplaced]

/-! Trees that are equal up to spans have as many spans and calls as each other. -/

theorem Expr.counts_eq {a b : Expr} (h : a.unplaced = b.unplaced) :
    SameCounts a.spans b.spans a.calls b.calls :=
  a.counts_unplaced.symm.trans (h ▸ b.counts_unplaced)

theorem Expr.listCounts_eq {as bs : List Expr} (h : unplacedList as = unplacedList bs) :
    SameCounts (listSpans as) (listSpans bs) (listCalls as) (listCalls bs) :=
  (counts_unplacedList as).symm.trans (h ▸ counts_unplacedList bs)

theorem ValueSpec.counts_eq {a b : ValueSpec} (h : a.unplaced = b.unplaced) :
    SameCounts a.spans b.spans (Expr.listCalls a.values) (Expr.listCalls b.values) :=
  a.counts_unplaced.symm.trans (h ▸ b.counts_unplaced)

theorem Stmt.counts_eq {a b : Stmt} (h : a.unplaced = b.unplaced) :
    SameCounts a.spans b.spans a.calls b.calls :=
  a.counts_unplaced.symm.trans (h ▸ b.counts_unplaced)

theorem Stmt.optionCounts_eq {a b : Option Stmt} (h : unplacedOption a = unplacedOption b) :
    SameCounts (optionSpans a) (optionSpans b) (optionCalls a) (optionCalls b) :=
  (counts_unplacedOption a).symm.trans (h ▸ counts_unplacedOption b)

theorem Block.counts_eq {a b : Block} (h : a.unplaced = b.unplaced) :
    SameCounts a.spans b.spans a.calls b.calls :=
  a.counts_unplaced.symm.trans (h ▸ b.counts_unplaced)

theorem Field.length_spans_eq {a b : Field} (h : a.unplaced = b.unplaced) :
    a.spans.length = b.spans.length :=
  a.length_spans_unplaced.symm.trans (h ▸ b.length_spans_unplaced)

theorem FieldList.length_spans_eq {a b : FieldList} (h : a.unplaced = b.unplaced) :
    a.spans.length = b.spans.length :=
  a.length_spans_unplaced.symm.trans (h ▸ b.length_spans_unplaced)

end Recast
