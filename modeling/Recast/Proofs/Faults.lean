import Recast.Proofs.Runs
import Recast.Proofs.Sound

/-!
# Where lowering fails

A fault points into a span if it is a rejection whose place lies in the span and whose quote is the
text at that place (`Fault.PointsInto`). Lowering a sound node can only fail with a fault that
points into the span of the node: this is shown for expressions (`Expr.lower_error`), then for each
step by the rules for the operations that steps are made of (`Lowering.FailsInto`), up to functions
(`Func.lower_error`). In particular no span is met that does not cut the text.
-/

namespace Recast

/-! ## Faults -/

/-- The fault is a rejection, which quotes the text at its place; the place lies in the span and is
not empty. -/
def Fault.PointsInto (src : Source) (span : Span) (f : Fault) : Prop :=
  ∃ r : Rejection, f = .rejected r ∧ span.Encloses r.span ∧ r.span.start < r.span.stop ∧
    src.slice? r.span = some r.cause.quote

variable {src : Source} {span : Span}

theorem Fault.PointsInto.mono {f : Fault} {outer : Span} (h : f.PointsInto src span)
    (ho : outer.Encloses span) : f.PointsInto src outer := by
  obtain ⟨r, hf, hs, hq⟩ := h
  exact ⟨r, hf, ho.trans hs, hq⟩

/-- A rejection by a cause that quotes the construction. -/
theorem Source.reject_pointsInto {cause : String → Cause} {place : Span} (hc : src.Covers place)
    (hs : span.Encloses place) (hq : ∀ t, (cause t).quote = t) :
    (src.reject cause place).PointsInto src span := by
  obtain ⟨t, ht⟩ := hc.slice?
  unfold Source.reject
  rw [ht]
  exact ⟨_, rfl, hs, hc.nonempty, by rw [hq, ht]⟩

/-- A rejection that names a name. -/
theorem Ident.Sound.pointsInto {x : Ident} {cause : Cause} (hx : x.Sound src)
    (hs : span.Encloses x.span) (hq : cause.quote = x.name) :
    (Fault.rejected ⟨cause, x.span⟩).PointsInto src span :=
  ⟨_, rfl, hs, hx.nonempty, by rw [hq]; exact hx.slice⟩

theorem Source.Frames.encloses {parts : List Span} {s : Span} (h : src.Frames span parts)
    (hs : s ∈ parts) : span.Encloses s :=
  h.holds.inside s hs

/-! ## Expressions -/

/-- The text of a span that cuts the source can be recorded. -/
theorem Source.Cuts.degrade {s : Span} (h : src.Cuts s) (loss : Loss) :
    (Recorded.degrade src loss s).result = .ok () := by
  obtain ⟨t, ht⟩ := h.slice?
  rw [Recorded.degrade_ok.2 ⟨t, ht, rfl⟩]

namespace Expr

theorem placeholder_ne_error {f : Fault} (hc : src.Cuts span) :
    (placeholder src span).result ≠ .error f := by
  rw [placeholder, Ne, Recorded.bind_error, hc.degrade]
  rintro (h | ⟨_, -, h⟩) <;> cases h

theorem dropped_ne_error {f : Fault} (hc : src.Cuts span) (n : Nat) :
    (dropped src span n).result ≠ .error f := by
  intro h
  cases n with
  | zero => cases h
  | succ n =>
    rw [dropped, hc.degrade] at h
    cases h

mutual

/-- Lowering a sound expression fails inside it, if it fails. -/
theorem lower_error {f : Fault} :
    ∀ {e : Expr}, e.Sound src → (e.lower src).result = .error f → f.PointsInto src e.span
  | .literal .., _, h | .name _, _, h => by cases h
  | .binary op l r span, hs, h => by
    cases hs with
    | binary hf hl hr =>
      have ho : op.isBinary = true := rfl
      rw [Expr.lower, if_pos ho] at h
      rcases Recorded.bind_error.1 h with h | ⟨l', -, h⟩
      · exact (lower_error hl h).mono (hf.encloses (by simp))
      · rcases Recorded.bind_error.1 h with h | ⟨r', -, h⟩
        · exact (lower_error hr h).mono (hf.encloses (by simp))
        · cases h
  | .unary op e span, hs, h => by
    cases hs with
    | unary hf he =>
      rw [Expr.lower] at h
      split at h
      · rcases Recorded.bind_error.1 h with h | ⟨e', -, h⟩
        · exact (lower_error he h).mono (hf.encloses (by simp))
        · cases h
      · cases h
        exact Source.reject_pointsInto hf.covers (.refl _) fun _ => rfl
  | .paren e span, hs, h => by
    cases hs with
    | paren hf he =>
      rw [Expr.lower] at h
      rcases Recorded.bind_error.1 h with h | ⟨e', -, h⟩
      · exact (lower_error he h).mono (hf.encloses (by simp))
      · cases h
  | .call callee args span, hs, h => by
    cases hs with
    | call hf hc ha =>
      rw [Expr.lower] at h
      split at h
      · exact lowerMessage_error hf.covers ha
          (fun a ha => hf.encloses (List.mem_cons_of_mem _ (List.mem_map_of_mem ha))) h
      · exact absurd h (placeholder_ne_error hf.cuts)
  | .selector e x span, hs, h => by
    cases h
    exact Source.reject_pointsInto hs.covers (.refl _) fun _ => rfl
  | .unsupported span, hs, h => by
    cases h
    exact Source.reject_pointsInto hs.covers (.refl _) fun _ => rfl

theorem lowerMessage_error {span : Span} {f : Fault} (hc : src.Covers span) :
    ∀ {args : List Expr}, (∀ a ∈ args, a.Sound src) → (∀ a ∈ args, span.Encloses a.span) →
      (lowerMessage src span args).result = .error f → f.PointsInto src span
  | [], _, _, h => by
    cases h
    exact Source.reject_pointsInto hc (.refl _) fun _ => rfl
  | first :: rest, ha, hs, h => by
    rw [lowerMessage] at h
    rcases Recorded.bind_error.1 h with h | ⟨x, -, h⟩
    · exact (lower_error (ha first List.mem_cons_self) h).mono (hs first List.mem_cons_self)
    · rcases Recorded.bind_error.1 h with h | ⟨_, -, h⟩
      · exact absurd h (dropped_ne_error hc.toCuts _)
      · cases h

end

end Expr

theorem TypeExpr.lower_error {type : TypeExpr} {f : Fault} (ht : type.Sound src)
    (h : type.lower src = .error f) : f.PointsInto src type.span := by
  unfold TypeExpr.lower at h
  split at h
  · split at h
    · cases h
    · cases h
      exact Ident.Sound.pointsInto ht (.refl _) rfl
  · cases h
    exact Source.reject_pointsInto ht (.refl _) fun _ => rfl

/-! ## Steps -/

namespace Lowering

variable {α β : Type}

/-- Wherever a step is run from, if it fails its fault points into the span. -/
def FailsInto (src : Source) (span : Span) (x : Lowering α) : Prop :=
  ∀ p q f, x.runFrom p = (.error f, q) → f.PointsInto src span

theorem FailsInto.mono {x : Lowering α} {outer : Span} (h : FailsInto src span x)
    (ho : outer.Encloses span) : FailsInto src outer x :=
  fun p q f hr => (h p q f hr).mono ho

theorem failsInto_pure (a : α) : FailsInto src span (pure a : Lowering α) := by
  intro p q f h
  cases h

theorem FailsInto.bind {x : Lowering α} {g : α → Lowering β} (hx : FailsInto src span x)
    (hg : ∀ a, FailsInto src span (g a)) : FailsInto src span (x >>= g) := by
  intro p q f h
  rw [bind_runFrom] at h
  cases hr : x.runFrom p with
  | mk r p' =>
    rw [hr] at h
    cases r with
    | ok a => exact hg a p' q f h
    | error e =>
      cases h
      exact hx p _ _ hr

theorem FailsInto.map {x : Lowering α} (hx : FailsInto src span x) (g : α → β) :
    FailsInto src span (g <$> x) := by
  rw [map_eq_pure_bind]
  exact hx.bind fun a => failsInto_pure _

theorem failsInto_lift {r : Except Fault α} (h : ∀ {f}, r = .error f → f.PointsInto src span) :
    FailsInto src span (lift r) := by
  intro p q f hr
  cases hr
  exact h rfl

theorem failsInto_throw {f : Fault} (h : f.PointsInto src span) :
    FailsInto src span (throw f : Lowering α) := by
  intro p q g hr
  cases hr
  exact h

theorem failsInto_reject {cause : String → Cause} {place : Span} (hc : src.Covers place)
    (hs : span.Encloses place) (hq : ∀ t, (cause t).quote = t) :
    FailsInto src span (reject src cause place : Lowering α) :=
  failsInto_throw (Source.reject_pointsInto hc hs hq)

theorem failsInto_scope : FailsInto src span Lowering.scope := by
  intro p q f h
  cases h

theorem failsInto_expr {e : Expr} (he : e.Sound src) (hs : span.Encloses e.span) :
    FailsInto src span (expr src e) := by
  intro p q f h
  rw [expr_runFrom] at h
  exact (Expr.lower_error he (congrArg Prod.fst h)).mono hs

theorem failsInto_declare {x : Ident} (hx : x.Sound src) (hs : span.Encloses x.span) :
    FailsInto src span (declare x) := by
  intro p q f h
  rw [declare_runFrom] at h
  split at h
  · cases h
  · cases h
    exact hx.pointsInto hs rfl

theorem FailsInto.inChild {x : Lowering α} (hx : FailsInto src span x) :
    FailsInto src span (inChild x) := by
  intro p q f h
  change ((x.runFrom p.inner).1, { (x.runFrom p.inner).2 with scope := p.scope }) = _ at h
  cases hr : x.runFrom p.inner with
  | mk r p' =>
    rw [hr] at h
    cases h
    exact hx p.inner p' f hr

theorem failsInto_option {g : α → Lowering β} {a : Option α}
    (h : ∀ x ∈ a, FailsInto src span (g x)) : FailsInto src span (a.mapM g) := by
  cases a with
  | none => exact failsInto_pure none
  | some x => exact (h x rfl).map some

end Lowering

/-! ## Simple statements -/

/-- A sound expression inside a span. -/
structure Expr.SoundIn (src : Source) (span : Span) (e : Expr) : Prop where
  sound : e.Sound src
  inside : span.Encloses e.span

theorem Expr.SoundIn.failsInto {e : Expr} (h : e.SoundIn src span) :
    Lowering.FailsInto src span (Lowering.expr src e) :=
  Lowering.failsInto_expr h.sound h.inside

/-- A sound name inside a span. -/
structure Ident.SoundIn (src : Source) (span : Span) (x : Ident) : Prop where
  sound : x.Sound src
  inside : span.Encloses x.span

open Lowering (FailsInto failsInto_pure failsInto_reject failsInto_scope failsInto_throw
  failsInto_declare failsInto_lift failsInto_option)

theorem lowerPair_failsInto {op : Operator} {lhs rhs : Expr} (hl : lhs.SoundIn src span)
    (hr : rhs.SoundIn src span) : FailsInto src span (lowerPair src op lhs rhs) := by
  refine hr.failsInto.bind fun value => ?_
  split
  · exact failsInto_pure _
  · exact hl.failsInto.bind fun target => failsInto_pure _

theorem lowerAssign_failsInto {op : Operator} {pairs : List (Expr × Expr)}
    (h : ∀ q ∈ pairs, q.1.SoundIn src span ∧ q.2.SoundIn src span) :
    FailsInto src span (lowerAssign src op pairs) := by
  induction pairs with
  | nil => exact failsInto_pure _
  | cons q pairs ih =>
    obtain ⟨hq, hqs⟩ := List.forall_mem_cons.1 h
    exact (lowerPair_failsInto hq.1 hq.2).bind fun _ => (ih hqs).bind fun _ => failsInto_pure _

theorem lowerBinding_failsInto {x : Ident} {rhs : Expr} (hx : x.SoundIn src span)
    (hr : rhs.SoundIn src span) : FailsInto src span (lowerBinding src x rhs) := by
  refine hr.failsInto.bind fun value => ?_
  split
  · exact failsInto_pure _
  · refine failsInto_scope.bind fun scope => ?_
    split
    · exact failsInto_pure _
    · exact (failsInto_declare hx.sound hx.inside).bind fun _ => failsInto_pure _

theorem lowerBindings_failsInto {pairs : List (Ident × Expr)}
    (h : ∀ q ∈ pairs, q.1.SoundIn src span ∧ q.2.SoundIn src span) :
    FailsInto src span (lowerBindings src pairs) := by
  induction pairs with
  | nil => exact failsInto_pure _
  | cons q pairs ih =>
    obtain ⟨hq, hqs⟩ := List.forall_mem_cons.1 h
    exact (lowerBinding_failsInto hq.1 hq.2).bind fun _ => (ih hqs).bind fun _ => failsInto_pure _

/-- The name that a `:=` repeats is one of its names. -/
theorem mem_of_repeatedName? {scope : Scope} {names : List Ident} {x : Ident}
    (h : repeatedName? scope names = some x) : x ∈ names := by
  unfold repeatedName? at h
  split at h
  · cases h
  · cases hf : names.find? fun x => !x.isBlank with
    | some y =>
      rw [hf] at h
      cases h
      exact List.mem_of_find?_eq_some hf
    | none =>
      rw [hf] at h
      exact List.mem_of_mem_head? h

theorem Expr.SoundIn.of_name? {e : Expr} {x : Ident} (h : e.SoundIn src span)
    (hx : e.name? = some x) : x.SoundIn src span := by
  obtain ⟨hs, hi⟩ := h
  cases hs with
  | name hn =>
    cases hx
    exact ⟨hn, hi⟩
  | literal | binary | unary | paren | call | selector | unsupported => cases hx

/-- The names on the left of a `:=` are sound as expressions, so they are sound as names. -/
theorem Expr.names_soundIn {es : List Expr} {names : List Ident}
    (h : es.mapM Expr.name? = some names) (hs : ∀ e ∈ es, e.SoundIn src span) :
    ∀ x ∈ names, x.SoundIn src span := by
  induction es generalizing names with
  | nil =>
    cases h
    simp
  | cons e es ih =>
    obtain ⟨he, hes⟩ := List.forall_mem_cons.1 hs
    rw [List.mapM_cons] at h
    obtain ⟨x, hx, h⟩ := Option.bind_eq_some_iff.1 h
    obtain ⟨xs, hxs, h⟩ := Option.bind_eq_some_iff.1 h
    cases h
    exact List.forall_mem_cons.2 ⟨he.of_name? hx, ih hxs hes⟩

theorem lowerDefine_failsInto {lhs rhs : List Expr} {place : Span} (hc : src.Covers place)
    (hp : span.Encloses place) (hl : ∀ e ∈ lhs, e.SoundIn src span)
    (hr : ∀ e ∈ rhs, e.SoundIn src span) : FailsInto src span (lowerDefine src lhs rhs place) := by
  unfold lowerDefine
  split
  · exact failsInto_reject hc hp fun _ => rfl
  · rename_i names hn
    have hnames := Expr.names_soundIn hn hl
    refine failsInto_scope.bind fun scope => ?_
    split
    · rename_i x hx
      have hm := hnames x (mem_of_repeatedName? hx)
      exact failsInto_throw (hm.sound.pointsInto hm.inside rfl)
    · exact lowerBindings_failsInto fun q hq =>
        ⟨hnames _ (List.of_mem_zip hq).1, hr _ (List.of_mem_zip hq).2⟩

theorem lowerName_failsInto {kind : DeclKind} {type : Option Primitive} {x : Ident}
    {value : Option Expr} (hx : x.SoundIn src span) (hv : ∀ e ∈ value, e.SoundIn src span) :
    FailsInto src span (lowerName src kind type x value) := by
  unfold lowerName
  split
  · split
    · rename_i v
      exact (hv v rfl).failsInto.bind fun _ => failsInto_pure _
    · exact failsInto_pure _
  · refine (failsInto_declare hx.sound hx.inside).bind fun _ => ?_
    exact (failsInto_option fun e he => (hv e he).failsInto).bind fun _ => failsInto_pure _

theorem lowerNames_failsInto {kind : DeclKind} {type : Option Primitive} {names : List Ident}
    {values : List Expr} (hx : ∀ x ∈ names, x.SoundIn src span)
    (hv : ∀ e ∈ values, e.SoundIn src span) :
    FailsInto src span (lowerNames src kind type names values) := by
  induction names generalizing values with
  | nil => exact failsInto_pure _
  | cons x names ih =>
    obtain ⟨hx, hxs⟩ := List.forall_mem_cons.1 hx
    have hhead : ∀ e ∈ values.head?, e.SoundIn src span := fun e he =>
      hv e (List.mem_of_mem_head? he)
    have htail : ∀ e ∈ values.tail, e.SoundIn src span := fun e he => hv e (List.mem_of_mem_tail he)
    exact (lowerName_failsInto hx hhead).bind fun _ => (ih hxs htail).bind fun _ => failsInto_pure _

theorem ValueSpec.lower_failsInto {kind : DeclKind} {spec : ValueSpec}
    (h : spec.Sound src (Expr.Sound src)) : FailsInto src spec.span (spec.lower src kind) := by
  unfold ValueSpec.lower
  refine (failsInto_option fun t ht => failsInto_lift fun hf => ?_).bind fun type => ?_
  · refine (TypeExpr.lower_error (h.type t ht) hf).mono (h.frames.encloses ?_)
    have hm : t.span ∈ spec.type.toList.map TypeExpr.span :=
      List.mem_map_of_mem (Option.mem_toList.2 ht)
    exact List.mem_append_left _ (List.mem_append_right _ hm)
  · split
    · exact failsInto_reject h.frames.covers (.refl _) fun _ => rfl
    · refine lowerNames_failsInto (fun x hx => ⟨h.names x hx, h.frames.encloses ?_⟩)
        fun e he => ⟨h.values e he, h.frames.encloses ?_⟩
      · exact List.mem_append_left _ (List.mem_append_left _ (List.mem_map_of_mem hx))
      · exact List.mem_append_right _ (List.mem_map_of_mem he)

theorem lowerSpecs_failsInto {kind : DeclKind} {specs : List ValueSpec}
    (h : ∀ s ∈ specs, s.Sound src (Expr.Sound src)) (hs : ∀ s ∈ specs, span.Encloses s.span) :
    FailsInto src span (lowerSpecs src kind specs) := by
  induction specs with
  | nil => exact failsInto_pure _
  | cons spec specs ih =>
    obtain ⟨h, ht⟩ := List.forall_mem_cons.1 h
    obtain ⟨hs, hst⟩ := List.forall_mem_cons.1 hs
    exact ((ValueSpec.lower_failsInto h).mono hs).bind fun _ =>
      (ih ht hst).bind fun _ => failsInto_pure _

theorem Stmt.lowerSimple_failsInto {s : Stmt} (h : s.Sound src (Expr.Sound src)) :
    FailsInto src s.span (s.lowerSimple src) := by
  cases h with
  | @assign lhs rhs op span hf hl hr =>
    have hl' : ∀ e ∈ lhs, e.SoundIn src span := fun e he =>
      ⟨hl e he, hf.encloses (List.mem_append_left _ (List.mem_map_of_mem he))⟩
    have hr' : ∀ e ∈ rhs, e.SoundIn src span := fun e he =>
      ⟨hr e he, hf.encloses (List.mem_append_right _ (List.mem_map_of_mem he))⟩
    rw [Stmt.lowerSimple]
    split
    · exact failsInto_reject hf.covers (.refl _) fun _ => rfl
    · split
      · exact lowerDefine_failsInto hf.covers (.refl _) hl' hr'
      · exact lowerAssign_failsInto fun q hq =>
          ⟨hl' _ (List.of_mem_zip hq).1, hr' _ (List.of_mem_zip hq).2⟩
  | decl hf hs =>
    exact lowerSpecs_failsInto hs fun s hm => hf.encloses (List.mem_map_of_mem hm)
  | step hf he =>
    have hin : Expr.SoundIn src _ _ := ⟨he, hf.encloses List.mem_cons_self⟩
    exact hin.failsInto.bind fun _ => failsInto_pure _
  | ret hf | cond hf | loop hf => exact failsInto_reject hf.covers (.refl _) fun _ => rfl
  | block hb => exact failsInto_reject hb.covers (.refl _) fun _ => rfl
  | unsupported hc => exact failsInto_reject hc (.refl _) fun _ => rfl

/-! ## Statements -/

/-- The initializer or the post statement of a header. -/
theorem Stmt.lowerSimple_option_failsInto {o : Option Stmt}
    (h : ∀ s ∈ o, s.Sound src (Expr.Sound src)) (hs : ∀ s ∈ o, span.Encloses s.span) :
    FailsInto src span (o.mapM (Stmt.lowerSimple src)) :=
  failsInto_option fun s hm => (Stmt.lowerSimple_failsInto (h s hm)).mono (hs s hm)

theorem encloses_of_option {α : Type} {f : α → Span} {o : Option α} {parts : List Span}
    (hf : src.Frames span parts) (hp : ∀ s ∈ o.toList.map f, s ∈ parts) :
    ∀ a ∈ o, span.Encloses (f a) :=
  fun _ ha => hf.encloses (hp _ (List.mem_map_of_mem (Option.mem_toList.2 ha)))

mutual

/-- Lowering a sound statement fails inside it, if it fails. -/
theorem Stmt.lower_failsInto :
    ∀ {s : Stmt}, s.Sound src (Expr.Sound src) → FailsInto src s.span (s.lower src)
  | .ret results span, h => by
    cases h with
    | ret hf hr =>
      rcases results with _ | ⟨value, _ | ⟨second, rest⟩⟩
      · rw [Stmt.lower]
        exact failsInto_pure _
      · have hin : value.SoundIn src span :=
          ⟨hr value List.mem_cons_self, hf.encloses List.mem_cons_self⟩
        rw [Stmt.lower]
        exact hin.failsInto.bind fun _ => failsInto_pure _
      · rw [Stmt.lower]
        · exact failsInto_reject hf.covers (.refl _) fun _ => rfl
        all_goals simp
  | .assign lhs op rhs span, h => by
    rw [Stmt.lower]
    exact (Stmt.lowerSimple_failsInto h).map _
  | .decl kind specs span, h => by
    rw [Stmt.lower]
    exact (Stmt.lowerSimple_failsInto h).map _
  | .step e op span, h => by
    rw [Stmt.lower]
    exact (Stmt.lowerSimple_failsInto h).map _
  | .cond init test body other span, h => by
    cases h with
    | cond hf hi ht hb ho =>
      have hinit := Stmt.lowerSimple_option_failsInto hi
        (encloses_of_option hf fun s hs => by simp [hs])
      have htest : test.SoundIn src span := ⟨ht, hf.encloses (by simp)⟩
      have hbody := (Block.lower_failsInto hb).mono (hf.encloses (by simp))
      have hother := Stmt.lowerOther_failsInto ho (encloses_of_option hf fun s hs => by simp [hs])
      rw [Stmt.lower]
      exact (hinit.bind fun _ => htest.failsInto.bind fun _ => hbody.bind fun _ =>
        hother.bind fun _ => failsInto_pure _).inChild
  | .loop init test post body span, h => by
    cases h with
    | loop hf hi ht hp hb =>
      have hinit := Stmt.lowerSimple_option_failsInto hi
        (encloses_of_option hf fun s hs => by simp [hs])
      have hpost := Stmt.lowerSimple_option_failsInto hp
        (encloses_of_option hf fun s hs => by simp [hs])
      have hin : ∀ e ∈ test, span.Encloses e.span :=
        encloses_of_option hf fun s hs => by simp [hs]
      have htest : FailsInto src span (test.mapM (Lowering.expr src)) :=
        failsInto_option fun e he => Lowering.failsInto_expr (ht e he) (hin e he)
      have hbody := (Block.lower_failsInto hb).mono (hf.encloses (by simp))
      rw [Stmt.lower]
      exact (hinit.bind fun _ => htest.bind fun _ => hpost.bind fun _ => hbody.bind fun _ =>
        failsInto_pure _).inChild
  | .block body, h => by
    cases h with
    | block hb =>
      rw [Stmt.lower]
      exact (Block.lower_failsInto hb).bind fun _ => failsInto_pure _
  | .unsupported span, h => by
    cases h with
    | unsupported hc =>
      rw [Stmt.lower]
      exact failsInto_reject hc (.refl _) fun _ => rfl

theorem Stmt.lowerOther_failsInto {span : Span} :
    ∀ {o : Option Stmt}, (∀ s ∈ o, s.Sound src (Expr.Sound src)) →
      (∀ s ∈ o, span.Encloses s.span) → FailsInto src span (Stmt.lowerOther src o)
  | none, _, _ => by
    rw [Stmt.lowerOther]
    exact failsInto_pure _
  | some (.block body), h, hs => by
    cases h _ rfl with
    | block hb =>
      rw [Stmt.lowerOther]
      exact ((Block.lower_failsInto hb).mono (hs _ rfl)).bind fun _ => failsInto_pure _
  | some (.cond none test body other place), h, hs => by
    cases h _ rfl with
    | cond hf hi ht hb ho =>
      have htest : test.SoundIn src place := ⟨ht, hf.encloses (by simp)⟩
      have hbody := (Block.lower_failsInto hb).mono (hf.encloses (by simp))
      have hother := Stmt.lowerOther_failsInto ho (encloses_of_option hf fun s hs => by simp [hs])
      rw [Stmt.lowerOther]
      exact (htest.failsInto.bind fun _ => hbody.bind fun _ => hother.bind fun _ =>
        failsInto_pure _).mono (hs _ rfl)
  | some (.cond (some init) test body other place), h, hs => by
    cases h _ rfl with
    | cond hf hi ht hb ho =>
      have hinit := (Stmt.lowerSimple_failsInto (hi init rfl)).mono (hf.encloses (by simp))
      have htest : test.SoundIn src place := ⟨ht, hf.encloses (by simp)⟩
      have hbody := (Block.lower_failsInto hb).mono (hf.encloses (by simp))
      have hother := Stmt.lowerOther_failsInto ho (encloses_of_option hf fun s hs => by simp [hs])
      rw [Stmt.lowerOther]
      exact (hinit.bind fun _ => htest.failsInto.bind fun _ => hbody.bind fun _ =>
        hother.bind fun _ => failsInto_pure _).inChild.mono (hs _ rfl)
  | some (.ret ..), h, hs | some (.assign ..), h, hs | some (.decl ..), h, hs
  | some (.step ..), h, hs | some (.loop ..), h, hs | some (.unsupported _), h, hs => by
    rw [Stmt.lowerOther]
    · exact failsInto_reject (h _ rfl).covers (hs _ rfl) fun _ => rfl
    all_goals simp

theorem Stmt.lowerList_failsInto {span : Span} :
    ∀ {ss : List Stmt}, (∀ s ∈ ss, s.Sound src (Expr.Sound src)) →
      (∀ s ∈ ss, span.Encloses s.span) → FailsInto src span (Stmt.lowerList src ss)
  | [], _, _ => by
    rw [Stmt.lowerList]
    exact failsInto_pure _
  | s :: ss, h, hs => by
    have hfirst := (Stmt.lower_failsInto (h s List.mem_cons_self)).mono (hs s List.mem_cons_self)
    have hrest := Stmt.lowerList_failsInto (fun t ht => h t (List.mem_cons_of_mem s ht))
      fun t ht => hs t (List.mem_cons_of_mem s ht)
    rw [Stmt.lowerList]
    exact hfirst.bind fun _ => hrest.bind fun _ => failsInto_pure _

theorem Block.lower_failsInto :
    ∀ {b : Block}, b.Sound src (Expr.Sound src) → FailsInto src b.span (b.lower src)
  | .mk stmts span, h => by
    cases h with
    | mk hf hb =>
      rw [Block.lower]
      exact (Stmt.lowerList_failsInto hb fun s hs => hf.encloses (List.mem_map_of_mem hs)).inChild

end

/-! ## Functions -/

theorem lowerParamNames_failsInto {type : Primitive} {names : List Ident}
    (h : ∀ x ∈ names, x.SoundIn src span) : FailsInto src span (lowerParamNames type names) := by
  induction names with
  | nil => exact failsInto_pure _
  | cons x names ih =>
    obtain ⟨hx, hxs⟩ := List.forall_mem_cons.1 h
    exact (failsInto_declare hx.sound hx.inside).bind fun _ =>
      (ih hxs).bind fun _ => failsInto_pure _

theorem Field.lowerParam_failsInto {field : Field} (h : field.Sound src) :
    FailsInto src field.span (field.lowerParam src) := by
  unfold Field.lowerParam
  have htype : FailsInto src field.span (Lowering.lift (field.type.lower src)) :=
    failsInto_lift fun hf => (TypeExpr.lower_error h.type hf).mono h.typeInside
  refine htype.bind fun type => ?_
  split
  · exact failsInto_reject h.frames.covers (.refl _) fun _ => rfl
  · exact lowerParamNames_failsInto fun x hx =>
      ⟨h.names x hx, h.frames.encloses (List.mem_map_of_mem hx)⟩

theorem lowerParams_failsInto {fields : List Field} (h : ∀ f ∈ fields, f.Sound src)
    (hs : ∀ f ∈ fields, span.Encloses f.span) : FailsInto src span (lowerParams src fields) := by
  induction fields with
  | nil => exact failsInto_pure _
  | cons field fields ih =>
    obtain ⟨h, ht⟩ := List.forall_mem_cons.1 h
    obtain ⟨hs, hst⟩ := List.forall_mem_cons.1 hs
    exact ((Field.lowerParam_failsInto h).mono hs).bind fun _ =>
      (ih ht hst).bind fun _ => failsInto_pure _

theorem FieldList.lowerResult_error {results : FieldList} {f : Fault} (h : results.Sound src)
    (he : results.lowerResult src = .error f) : f.PointsInto src results.span := by
  unfold FieldList.lowerResult at he
  split at he
  · cases he
    exact Source.reject_pointsInto h.frames.covers (.refl _) fun _ => rfl
  · split at he
    · cases he
    · rename_i field rest hfields
      have hm : field ∈ results.fields := by rw [hfields]; exact List.mem_cons_self
      have hfield := h.fields field hm
      cases ht : field.type.lower src with
      | ok t =>
        rw [ht] at he
        cases he
      | error e =>
        rw [ht] at he
        cases he
        exact (TypeExpr.lower_error hfield.type ht).mono
          ((h.frames.encloses (List.mem_map_of_mem hm)).trans hfield.typeInside)

/-- What is lowered of a function stands after its name. -/
theorem Func.lowerParts_failsInto {f : Func} (h : f.Sound src (Expr.Sound src))
    (hparts : ∀ s ∈ f.parts.tail, span.Encloses s) : FailsInto src span (f.lowerParts src) := by
  have hresult : FailsInto src span
      (Lowering.lift (f.results.elim (.ok none) (FieldList.lowerResult src))) := by
    refine failsInto_lift fun he => ?_
    cases hr : f.results with
    | none =>
      rw [hr] at he
      cases he
    | some results =>
      rw [hr] at he
      exact (FieldList.lowerResult_error (h.results results hr) he).mono
        (hparts _ (by simp [Func.parts, hr]))
  have hin : span.Encloses f.params.span := hparts _ (by simp [Func.parts])
  have hparams : FailsInto src span (lowerParams src f.params.fields) :=
    lowerParams_failsInto h.params.fields fun g hg =>
      hin.trans (h.params.frames.encloses (List.mem_map_of_mem hg))
  have hbody : FailsInto src span (f.body.elim (pure []) (Block.lower src)) := by
    cases hb : f.body with
    | none => exact failsInto_pure _
    | some body =>
      exact (Block.lower_failsInto (h.body body hb)).mono (hparts _ (by simp [Func.parts, hb]))
  exact hresult.bind fun _ => hparams.bind fun _ => hbody.bind fun _ => failsInto_pure _

/-- Lowering a sound function fails inside it, if it fails. -/
theorem Func.lower_error {f : Func} {policy : ScopePolicy} {fault : Fault}
    (h : f.Sound src (Expr.Sound src)) (he : f.lower src policy = .error fault) :
    fault.PointsInto src f.span := by
  unfold Func.lower at he
  split at he
  · cases he
  · rename_i e q hr
    cases he
    exact Func.lowerParts_failsInto h (fun s hs => h.frames.encloses (List.mem_of_mem_tail hs))
      _ _ _ hr

end Recast
