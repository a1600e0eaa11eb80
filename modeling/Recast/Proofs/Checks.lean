import Recast.Proofs.Runs
import Recast.Proofs.Supported

/-!
# What steps check

A step of an isolated lowering, described by what it checks, in terms of the names that are known
when it starts, and by the names that it makes known (`Checks`). Such descriptions are put together
as the steps are: after a step, the next one sees the names of both. The steps of expressions,
names and simple statements check just what makes these supported.
-/

namespace Recast

open Target (Fragment)

/-- No level but the current one can be seen, neither now nor from a level inside it. -/
structure Progress.Isolated (p : Progress) : Prop where
  policy : p.scope.policy = .isolated
  outer : p.scope.outer = []

/-- The names known at the current level. -/
def Progress.known (p : Progress) : Set String := {n | n ∈ p.scope.here}

namespace Progress.Isolated

variable {p : Progress}

theorem inner (h : p.Isolated) : p.inner.Isolated := by
  have hp := h.policy
  constructor <;> simp [Scope.child, hp]

theorem declaring (h : p.Isolated) (n : String) : (p.declaring n).Isolated := ⟨h.policy, h.outer⟩

/-- A name that can be seen is known at the current level. -/
theorem isDeclared_iff (h : p.Isolated) {n : String} :
    p.scope.isDeclared n = true ↔ n ∈ p.known := by
  simp [Scope.isDeclared, Scope.isDeclaredHere, h.outer, known]

end Progress.Isolated

theorem Progress.inner_known (p : Progress) : p.inner.known = ∅ := by
  simp [known]

theorem Progress.declaring_known (p : Progress) (n : String) :
    (p.declaring n).known = p.known ∪ {m | m ∈ [n]} := by
  ext m
  simp [known, declaring, or_comm]

/-! ## What a step checks -/

/-- A step succeeds just if a condition holds of the names known before it, and then the names
known after it are these and some more. -/
structure Checks {α : Type} (step : Lowering α) (ok : Set String → Prop) (names : List String) :
    Prop where
  iff : ∀ {p : Progress}, p.Isolated → ((∃ a q, step.runFrom p = (.ok a, q)) ↔ ok p.known)
  after : ∀ {p q : Progress} {a : α}, p.Isolated → step.runFrom p = (.ok a, q) →
    q.Isolated ∧ q.known = p.known ∪ {n | n ∈ names}

namespace Checks

variable {α β : Type} {x : Lowering α} {f : α → Lowering β} {P Q : Set String → Prop}
  {ms ns : List String}

theorem congr (h : Checks x P ns) (hPQ : ∀ seen, P seen ↔ Q seen) : Checks x Q ns :=
  ⟨fun hp => (h.iff hp).trans (hPQ _), h.after⟩

theorem pure (a : α) : Checks (Pure.pure a) (fun _ => True) [] := by
  constructor
  · intro p hp
    simp only [iff_true]
    exact ⟨a, p, rfl⟩
  · intro p q b hp h
    obtain ⟨-, rfl⟩ := Lowering.pure_ok.1 h
    exact ⟨hp, by simp⟩

theorem lift (r : Except Fault α) : Checks (Lowering.lift r) (fun _ => ∃ a, r = .ok a) [] := by
  constructor
  · intro p hp
    simp only [Lowering.lift_ok]
    constructor
    · intro h
      obtain ⟨a, q, ha, -⟩ := h
      exact ⟨a, ha⟩
    · intro h
      obtain ⟨a, ha⟩ := h
      exact ⟨a, p, ha, rfl⟩
  · intro p q a hp h
    obtain ⟨-, rfl⟩ := Lowering.lift_ok.1 h
    exact ⟨hp, by simp⟩

/-- A step that always fails may be said to make any names known. -/
theorem fails (h : ∀ p q a, ¬ x.runFrom p = (.ok a, q)) : Checks x (fun _ => False) ns := by
  constructor
  · intro p hp
    simp only [iff_false]
    intro h
    obtain ⟨a, q, ha⟩ := h
    exact h p q a ha
  · intro p q a hp ha
    exact absurd ha (h p q a)

theorem reject {src : Source} {cause : String → Cause} {span : Span} :
    Checks (Lowering.reject src cause span : Lowering α) (fun _ => False) ns :=
  fails fun _ _ _ => Lowering.reject_ok

theorem bind (hx : Checks x P ms) (hf : ∀ a, Checks (f a) Q ns) :
    Checks (x >>= f) (fun seen => P seen ∧ Q (seen ∪ {n | n ∈ ms})) (ms ++ ns) := by
  constructor
  · intro p hp
    rw [← hx.iff hp]
    simp only [Lowering.bind_ok]
    constructor
    · intro h
      obtain ⟨b, q, a, r, ha, hb⟩ := h
      obtain ⟨hr, hk⟩ := hx.after hp ha
      exact ⟨⟨a, r, ha⟩, hk ▸ ((hf a).iff hr).1 ⟨b, q, hb⟩⟩
    · intro h
      obtain ⟨⟨a, r, ha⟩, hq⟩ := h
      obtain ⟨hr, hk⟩ := hx.after hp ha
      obtain ⟨b, q, hb⟩ := ((hf a).iff hr).2 (hk ▸ hq)
      exact ⟨b, q, a, r, ha, hb⟩
  · intro p q b hp h
    obtain ⟨a, r, ha, hb⟩ := Lowering.bind_ok.1 h
    obtain ⟨hr, hk⟩ := hx.after hp ha
    obtain ⟨hq, hl⟩ := (hf a).after hr hb
    refine ⟨hq, ?_⟩
    rw [hl, hk, Set.union_assoc]
    congr 1
    ext n
    simp

/-- A step after one that makes no name known. -/
theorem andThen {A : Prop} (hx : Checks x (fun _ => A) []) (hf : ∀ a, Checks (f a) Q ns) :
    Checks (x >>= f) (fun seen => A ∧ Q seen) ns :=
  (hx.bind hf).congr fun seen => by simp

theorem map (hx : Checks x P ns) (g : α → β) : Checks (g <$> x) P ns := by
  have h := hx.bind fun a => pure (g a)
  rw [List.append_nil] at h
  rw [map_eq_pure_bind]
  exact h.congr fun seen => by simp

theorem both {γ : Type} {y : Lowering β} (hx : Checks x P ms) (hy : Checks y Q ns)
    (g : α → β → γ) :
    Checks (do let a ← x; let b ← y; return g a b)
      (fun seen => P seen ∧ Q (seen ∪ {n | n ∈ ms})) (ms ++ ns) :=
  hx.bind fun a => by
    have h := hy.map (g a)
    rwa [map_eq_pure_bind] at h

/-- A step at a level of its own starts without names and leaves none. -/
theorem inChild (hx : Checks x P ns) : Checks (Lowering.inChild x) (fun _ => P ∅) [] := by
  constructor
  · intro p hp
    have hi := hx.iff hp.inner
    rw [p.inner_known] at hi
    rw [← hi]
    simp only [Lowering.inChild_ok]
    constructor
    · intro h
      obtain ⟨a, q, r, hr, -⟩ := h
      exact ⟨a, r, hr⟩
    · intro h
      obtain ⟨a, r, hr⟩ := h
      exact ⟨a, _, r, hr, rfl⟩
  · intro p q a hp h
    obtain ⟨r, -, rfl⟩ := Lowering.inChild_ok.1 h
    exact ⟨⟨hp.policy, hp.outer⟩, by simp [Progress.known]⟩

end Checks

/-! ## Types and expressions -/

variable {src : Source}

theorem except_map_ok {α β : Type} {g : α → β} {r : Except Fault α} :
    (∃ b, g <$> r = .ok b) ↔ ∃ a, r = .ok a := by
  cases r <;> simp [Functor.map, Except.map]

theorem TypeExpr.lower_ok_iff (src : Source) (t : TypeExpr) :
    (∃ a, t.lower src = .ok a) ↔ t.Mapped := by
  cases t with
  | named x =>
    rw [TypeExpr.lower, TypeExpr.Mapped]
    cases Primitive.ofName? x.name <;> simp
  | unsupported span => simp [TypeExpr.lower, TypeExpr.Mapped]

theorem optionType_ok_iff (src : Source) (t : Option TypeExpr) :
    (∃ a, t.mapM (TypeExpr.lower src) = .ok a) ↔ ∀ u ∈ t, u.Mapped := by
  cases t with
  | none => simp [pure, Except.pure]
  | some t =>
    simp only [Option.mapM_some, Option.mem_def, Option.some.injEq, forall_eq']
    rw [← TypeExpr.lower_ok_iff src]
    exact except_map_ok

theorem Expr.acceptable_of_lower : ∀ (e : Expr) {x : Target.Expr} {ds : List Degradation},
    e.lower src = ⟨.ok x, ds⟩ → e.Acceptable
  | .literal t span, x, ds, h => .literal
  | .name n, x, ds, h => .name
  | .binary op l r span, x, ds, h => by
    obtain ⟨l', ls, r', rs, hl, hr, -, -⟩ := Expr.lower_binary_ok.1 h
    exact .binary (Expr.acceptable_of_lower l hl) (Expr.acceptable_of_lower r hr)
  | .unary op e span, x, ds, h => by
    obtain ⟨ho, e', he, -⟩ := Expr.lower_unary_ok.1 h
    exact .unary ho (Expr.acceptable_of_lower e he)
  | .paren e span, x, ds, h => by
    obtain ⟨e', he, -⟩ := Expr.lower_paren_ok.1 h
    exact .paren (Expr.acceptable_of_lower e he)
  | .call callee [] span, x, ds, h => by
    rw [Expr.lower] at h
    split at h
    · cases h
    · rename_i hc
      exact .call (by simpa using hc)
  | .call callee (first :: rest) span, x, ds, h => by
    rw [Expr.lower] at h
    split at h
    · rename_i hc
      obtain ⟨_, _, x', xs, ys, ⟨⟩, hx, -, -, -⟩ := Expr.lowerMessage_ok.1 h
      exact .message hc (Expr.acceptable_of_lower first hx)
    · rename_i hc
      exact .call (by simpa using hc)
  | .selector e field span, x, ds, h | .unsupported span, x, ds, h => by cases h

/-- Only a call can need the source text, for what it loses. -/
theorem Expr.Acceptable.lower {e : Expr} (h : e.Acceptable) (hs : src.Slices e.spans) :
    ∃ x ds, e.lower src = ⟨.ok x, ds⟩ := by
  induction h with
  | literal | name => exact ⟨_, _, rfl⟩
  | binary hl hr ihl ihr =>
    simp only [Expr.spans, Source.slices_cons, Source.slices_append] at hs
    obtain ⟨l', ls, hl⟩ := ihl hs.2.1
    obtain ⟨r', rs, hr⟩ := ihr hs.2.2
    exact ⟨_, _, Expr.lower_binary_ok.2 ⟨l', ls, r', rs, hl, hr, rfl, rfl⟩⟩
  | unary ho he ih =>
    rw [Expr.spans, Source.slices_cons] at hs
    obtain ⟨e', ds, he⟩ := ih hs.2
    exact ⟨_, _, Expr.lower_unary_ok.2 ⟨ho, e', he, rfl⟩⟩
  | paren he ih =>
    rw [Expr.spans, Source.slices_cons] at hs
    obtain ⟨e', ds, he⟩ := ih hs.2
    exact ⟨_, _, Expr.lower_paren_ok.2 ⟨e', he, rfl⟩⟩
  | @call callee args span hc =>
    rw [Expr.spans, Source.slices_cons] at hs
    obtain ⟨t, ht⟩ := Option.isSome_iff_exists.1 hs.1
    refine ⟨.placeholder, [⟨.unrecognizedCall, t, span⟩], ?_⟩
    rw [Expr.lower, hc, if_neg (by simp)]
    exact Expr.placeholder_ok.2 ⟨t, ht, rfl, rfl⟩
  | @message callee first rest span hc hf ih =>
    simp only [Expr.spans, Expr.listSpans, Source.slices_cons, Source.slices_append] at hs
    obtain ⟨x', xs, hx⟩ := ih hs.2.2.1
    obtain ⟨t, ht⟩ := Option.isSome_iff_exists.1 hs.1
    have hd : ∃ ys, Expr.dropped src span rest.length = ⟨.ok (), ys⟩ := by
      by_cases hn : rest.length = 0
      · exact ⟨_, Expr.dropped_ok.2 (.inl ⟨hn, rfl⟩)⟩
      · exact ⟨_, Expr.dropped_ok.2 (.inr ⟨t, Nat.pos_of_ne_zero hn, ht, rfl⟩)⟩
    obtain ⟨ys, hy⟩ := hd
    refine ⟨.message x', xs ++ ys, ?_⟩
    rw [Expr.lower, if_pos hc]
    exact Expr.lowerMessage_ok.2 ⟨first, rest, x', xs, ys, rfl, hx, hy, rfl, rfl⟩

theorem Lowering.expr_checks {e : Expr} (hs : src.Slices e.spans) :
    Checks (Lowering.expr src e) (fun _ => e.Acceptable) [] := by
  constructor
  · intro p hp
    simp only [Lowering.expr_ok]
    constructor
    · intro h
      obtain ⟨x, q, ds, hx, -⟩ := h
      exact Expr.acceptable_of_lower e hx
    · intro h
      obtain ⟨x, ds, hx⟩ := h.lower hs
      exact ⟨x, _, ds, hx, rfl⟩
  · intro p q x hp h
    obtain ⟨ds, -, rfl⟩ := Lowering.expr_ok.1 h
    exact ⟨⟨hp.policy, hp.outer⟩, by simp [Progress.known]⟩

theorem Lowering.optionExpr_checks {e : Option Expr} (hs : src.Slices (e.elim [] Expr.spans)) :
    Checks (e.mapM (Lowering.expr src)) (fun _ => ∀ x ∈ e, x.Acceptable) [] := by
  cases e with
  | none => exact (Checks.pure (none : Option Target.Expr)).congr fun seen => by simp
  | some e => exact ((Lowering.expr_checks hs).map some).congr fun seen => by simp

/-! ## Names -/

theorem Lowering.declare_checks (x : Ident) :
    Checks (Lowering.declare x) (fun seen => New seen (Ident.visible [x])) (Ident.visible [x]) := by
  cases hb : x.isBlank with
  | true =>
    rw [Ident.visible_of_blank hb]
    have hd : ∀ p : Progress, p.scope.declare? x = some p.scope := by
      intro p
      rw [Scope.declare?, if_pos hb]
    constructor
    · intro p hp
      simp only [New.nil, iff_true]
      exact ⟨(), p, Lowering.declare_ok.2 ⟨_, hd p, rfl⟩⟩
    · intro p q u hp h
      obtain ⟨s, hs, rfl⟩ := Lowering.declare_ok.1 h
      cases (hd p).symm.trans hs
      exact ⟨hp, by simp⟩
  | false =>
    rw [Ident.visible_of_not_blank hb]
    simp only [New.singleton_iff]
    constructor
    · intro p hp
      simp only [Lowering.declare_ok_of_not_blank hb]
      have hk : p.scope.isDeclaredHere x.name = false ↔ x.name ∉ p.known := by
        simp [Scope.isDeclaredHere, Progress.known]
      rw [hk]
      constructor
      · intro h
        obtain ⟨u, q, h, -⟩ := h
        exact h
      · intro h
        exact ⟨(), _, h, rfl⟩
    · intro p q u hp h
      obtain ⟨-, rfl⟩ := (Lowering.declare_ok_of_not_blank hb).1 h
      exact ⟨hp.declaring _, p.declaring_known _⟩

/-! ## Simple statements -/

theorem lowerPair_checks (op : Operator) {lhs rhs : Expr} (hl : src.Slices lhs.spans)
    (hr : src.Slices rhs.spans) :
    Checks (lowerPair src op lhs rhs) (fun _ => rhs.Acceptable ∧ lhs.Acceptable) [] := by
  refine (Lowering.expr_checks hr).andThen fun value => ?_
  split
  · rename_i hb
    -- the blank name is acceptable without being looked at
    have ha : lhs.Acceptable := by
      cases lhs with
      | name x => exact .name
      | _ => cases hb.2
    exact (Checks.pure _).congr fun seen => by simp [ha]
  · exact ((Lowering.expr_checks hl).map (Fragment.assign · op value)).congr fun seen => Iff.rfl

theorem lowerAssign_checks {op : Operator} {lhs rhs : List Expr} (hl : lhs.length = rhs.length)
    (hls : src.Slices (Expr.listSpans lhs)) (hrs : src.Slices (Expr.listSpans rhs)) :
    Checks (lowerAssign src op (lhs.zip rhs))
      (fun _ => (∀ e ∈ rhs, e.Acceptable) ∧ ∀ e ∈ lhs, e.Acceptable) [] := by
  induction lhs generalizing rhs with
  | nil =>
    have hr : rhs = [] := List.length_eq_zero_iff.1 hl.symm
    subst hr
    exact (Checks.pure _).congr fun seen => by simp
  | cons l lhs ih =>
    cases rhs with
    | nil => cases hl
    | cons r rhs =>
      rw [Expr.listSpans, Source.slices_append] at hls hrs
      have ht := ih (Nat.succ.inj hl) hls.2 hrs.2
      have h := (lowerPair_checks op hls.1 hrs.1).both ht List.cons
      exact h.congr fun seen => by
        rw [List.forall_mem_cons, List.forall_mem_cons]
        exact and_and_and_comm

/-- A name that can be seen keeps its level as it is; any other is declared there. -/
theorem bindName_checks {x : Ident} (hb : x.isBlank = false) (a b : Fragment) :
    Checks (do
        if (← Lowering.scope).isDeclared x.name then return a
        else do
          Lowering.declare x
          return b)
      (fun _ => True) (Ident.visible [x]) := by
  have hr : ∀ p : Progress, p.Isolated → ∃ c q, (do
        if (← Lowering.scope).isDeclared x.name then return a
        else do
          Lowering.declare x
          return b : Lowering Fragment).runFrom p = (.ok c, q) ∧ q.Isolated ∧
        q.known = p.known ∪ {n | n ∈ [x.name]} := by
    intro p hp
    have hs : Lowering.scope.runFrom p = (.ok p.scope, p) := Lowering.scope_ok.2 ⟨rfl, rfl⟩
    by_cases hd : p.scope.isDeclared x.name = true
    · refine ⟨a, p, ?_, hp, ?_⟩
      · rw [Lowering.bind_ok]
        refine ⟨p.scope, p, hs, ?_⟩
        rw [if_pos hd]
        exact Lowering.pure_ok.2 ⟨rfl, rfl⟩
      · have hk := hp.isDeclared_iff.1 hd
        have hn : {n | n ∈ [x.name]} ⊆ p.known := by
          intro n hn
          rwa [List.mem_singleton.1 hn]
        exact (Set.union_eq_self_of_subset_right hn).symm
    · refine ⟨b, p.declaring x.name, ?_, hp.declaring _, p.declaring_known _⟩
      rw [Lowering.bind_ok]
      refine ⟨p.scope, p, hs, ?_⟩
      rw [if_neg hd, Lowering.bind_ok]
      have hn : p.scope.isDeclaredHere x.name = false := by
        rw [Bool.not_eq_true, Scope.isDeclared, Bool.or_eq_false_iff] at hd
        exact hd.1
      exact ⟨(), _, (Lowering.declare_ok_of_not_blank hb).2 ⟨hn, rfl⟩,
        Lowering.pure_ok.2 ⟨rfl, rfl⟩⟩
  rw [Ident.visible_of_not_blank hb]
  constructor
  · intro p hp
    obtain ⟨c, q, h, -⟩ := hr p hp
    simp only [iff_true]
    exact ⟨c, q, h⟩
  · intro p q c hp h
    obtain ⟨d, r, hd, hi, hk⟩ := hr p hp
    cases h.symm.trans hd
    exact ⟨hi, hk⟩

theorem lowerBinding_checks {x : Ident} {rhs : Expr} (hs : src.Slices rhs.spans) :
    Checks (lowerBinding src x rhs) (fun _ => rhs.Acceptable) (Ident.visible [x]) := by
  unfold lowerBinding
  refine ((Lowering.expr_checks hs).andThen (Q := fun _ => True) fun value => ?_).congr
    fun seen => Iff.of_eq (and_true _)
  cases hb : x.isBlank with
  | true =>
    rw [Ident.visible_of_blank hb]
    exact Checks.pure _
  | false => exact bindName_checks hb _ _

theorem lowerBindings_checks {names : List Ident} {rhs : List Expr}
    (hl : names.length = rhs.length) (hs : src.Slices (Expr.listSpans rhs)) :
    Checks (lowerBindings src (names.zip rhs)) (fun _ => ∀ e ∈ rhs, e.Acceptable)
      (Ident.visible names) := by
  induction names generalizing rhs with
  | nil =>
    have hr : rhs = [] := List.length_eq_zero_iff.1 hl.symm
    subst hr
    exact (Checks.pure _).congr fun seen => by simp
  | cons x names ih =>
    cases rhs with
    | nil => cases hl
    | cons e rhs =>
      rw [Expr.listSpans, Source.slices_append] at hs
      have h := (lowerBinding_checks (x := x) hs.1).both (ih (Nat.succ.inj hl) hs.2) List.cons
      rw [Ident.visible_cons]
      exact h.congr fun seen => List.forall_mem_cons.symm

theorem lowerName_checks (kind : DeclKind) (type : Option Primitive) (x : Ident)
    (v : Option Expr) (hs : src.Slices (v.elim [] Expr.spans)) :
    Checks (lowerName src kind type x v)
      (fun seen => New seen (Ident.visible [x]) ∧ ∀ e ∈ v, e.Acceptable) (Ident.visible [x]) := by
  unfold lowerName
  cases hb : x.isBlank with
  | true =>
    rw [Ident.visible_of_blank hb, if_pos rfl]
    cases v with
    | none => exact (Checks.pure _).congr fun seen => by simp [New.nil]
    | some v =>
      have h := (Lowering.expr_checks hs).map fun value => [Fragment.discard value]
      exact h.congr fun seen => by simp [New.nil]
  | false =>
    rw [if_neg (by simp)]
    have h := (Lowering.declare_checks x).both (Lowering.optionExpr_checks hs)
      fun _ value => [Fragment.declare (kind = .const) type x.name value]
    rw [List.append_nil] at h
    exact h

theorem lowerNames_checks {kind : DeclKind} {type : Option Primitive} {names : List Ident}
    {values : List Expr} (hl : values = [] ∨ values.length = names.length)
    (hs : src.Slices (Expr.listSpans values)) :
    Checks (lowerNames src kind type names values)
      (fun seen => New seen (Ident.visible names) ∧ ∀ e ∈ values, e.Acceptable)
      (Ident.visible names) := by
  induction names generalizing values with
  | nil =>
    have hv : values = [] := hl.elim id List.length_eq_zero_iff.1
    subst hv
    exact (Checks.pure _).congr fun seen => by simp [Ident.visible, New.nil]
  | cons x names ih =>
    rw [Ident.visible_cons]
    cases values with
    | nil =>
      have hn := lowerName_checks kind type x none hs
      have h := hn.both (ih (.inl rfl) hs) (· ++ ·)
      exact h.congr fun seen => by simp [New.append_iff]
    | cons v values =>
      rw [Expr.listSpans, Source.slices_append] at hs
      have hl : values.length = names.length := Nat.succ.inj (hl.resolve_left (by simp))
      have hn := lowerName_checks kind type x (some v) hs.1
      have h := hn.both (ih (.inr hl) hs.2) (· ++ ·)
      exact h.congr fun seen => by
        rw [New.append_iff, List.forall_mem_cons, and_and_and_comm]
        simp

theorem ValueSpec.lower_checks (kind : DeclKind) {spec : ValueSpec}
    (hs : src.Slices (Expr.listSpans spec.values)) :
    Checks (spec.lower src kind) (fun seen => spec.Regular ∧ New seen (Ident.visible spec.names))
      (Ident.visible spec.names) := by
  constructor
  · intro p hp
    simp only [ValueSpec.lower_ok]
    constructor
    · intro h
      obtain ⟨fs, q, type, ht, hl, hn⟩ := h
      obtain ⟨hw, ha⟩ := ((lowerNames_checks hl hs).iff hp).1 ⟨fs, q, hn⟩
      exact ⟨⟨(optionType_ok_iff src spec.type).1 ⟨type, ht⟩, hl, ha⟩, hw⟩
    · intro h
      obtain ⟨hr, hw⟩ := h
      obtain ⟨type, ht⟩ := (optionType_ok_iff src spec.type).2 hr.type
      obtain ⟨fs, q, hn⟩ :=
        ((lowerNames_checks hr.values hs).iff hp).2 ⟨hw, hr.acceptable⟩
      exact ⟨fs, q, type, ht, hr.values, hn⟩
  · intro p q fs hp h
    obtain ⟨type, -, hl, hn⟩ := ValueSpec.lower_ok.1 h
    exact (lowerNames_checks hl hs).after hp hn

theorem lowerSpecs_checks {kind : DeclKind} {specs : List ValueSpec}
    (hs : src.Slices (specs.flatMap ValueSpec.spans)) :
    Checks (lowerSpecs src kind specs)
      (fun seen => (∀ spec ∈ specs, spec.Regular) ∧
        New seen (Ident.visible (specs.flatMap ValueSpec.names)))
      (Ident.visible (specs.flatMap ValueSpec.names)) := by
  induction specs with
  | nil => exact (Checks.pure _).congr fun seen => by simp [Ident.visible, New.nil]
  | cons spec specs ih =>
    rw [List.flatMap_cons, Source.slices_append, ValueSpec.spans, Source.slices_cons,
      Source.slices_append] at hs
    rw [List.flatMap_cons, Ident.visible_append]
    have h := (ValueSpec.lower_checks kind hs.1.2.2).both (ih hs.2) (· ++ ·)
    exact h.congr fun seen => by
      rw [New.append_iff, List.forall_mem_cons, and_and_and_comm]

theorem repeatedName?_known_iff {p : Progress} {names : List Ident} :
    repeatedName? p.scope names = none ↔
      names = [] ∨ ∃ n ∈ Ident.visible names, n ∉ p.known := by
  rw [repeatedName?_eq_none_iff]
  have hk : ∀ n, p.scope.isDeclaredHere n = false ↔ n ∉ p.known := by
    intro n
    simp [Scope.isDeclaredHere, Progress.known]
  simp only [hk, Ident.mem_visible]
  constructor
  · intro h
    rcases h with h | ⟨x, hx, hb, hn⟩
    · exact .inl h
    · exact .inr ⟨x.name, ⟨x, hx, hb, rfl⟩, hn⟩
  · intro h
    rcases h with h | ⟨n, ⟨x, hx, hb, rfl⟩, hn⟩
    · exact .inl h
    · exact .inr ⟨x, hx, hb, hn⟩

theorem lowerDefine_checks {lhs rhs : List Expr} {span : Span} (hl : lhs.length = rhs.length)
    (hs : src.Slices (Expr.listSpans rhs)) :
    Checks (lowerDefine src lhs rhs span)
      (fun seen => (∀ e ∈ lhs, ∃ x, e = .name x) ∧ (∀ e ∈ rhs, e.Acceptable) ∧
        (lhs = [] ∨ ∃ n ∈ Ident.visible (lhs.filterMap Expr.name?), n ∉ seen))
      (Ident.visible (lhs.filterMap Expr.name?)) := by
  constructor
  · intro p hp
    simp only [lowerDefine_ok, repeatedName?_known_iff]
    constructor
    · intro h
      obtain ⟨fs, q, names, hn, hr, hb⟩ := h
      have hc := lowerBindings_checks ((Expr.names_length hn).trans hl) hs
      refine ⟨Expr.names_iff.1 ⟨names, hn⟩, (hc.iff hp).1 ⟨fs, q, hb⟩, ?_⟩
      rw [← Expr.names_eq hn, ← List.length_eq_zero_iff, ← Expr.names_length hn,
        List.length_eq_zero_iff]
      exact hr
    · intro h
      obtain ⟨hn, ha, hr⟩ := h
      obtain ⟨names, hn⟩ := Expr.names_iff.2 hn
      have hc := lowerBindings_checks ((Expr.names_length hn).trans hl) hs
      obtain ⟨fs, q, hb⟩ := (hc.iff hp).2 ha
      rw [← Expr.names_eq hn, ← List.length_eq_zero_iff, ← Expr.names_length hn,
        List.length_eq_zero_iff] at hr
      exact ⟨fs, q, names, hn, hr, hb⟩
  · intro p q fs hp h
    obtain ⟨names, hn, -, hb⟩ := lowerDefine_ok.1 h
    rw [← Expr.names_eq hn]
    exact (lowerBindings_checks ((Expr.names_length hn).trans hl) hs).after hp hb

/-- An assignment checks its sides before it looks at names. -/
theorem Stmt.lowerSimple_assign_checks {lhs rhs : List Expr} {op : Operator} {span : Span}
    (hs : src.Slices (Stmt.assign lhs op rhs span).spans) :
    Checks (Stmt.lowerSimple src (.assign lhs op rhs span))
      (fun seen => (Stmt.assign lhs op rhs span).Regular ∧
        (Stmt.assign lhs op rhs span).Fresh seen)
      (Stmt.assign lhs op rhs span).introduced := by
  rw [Stmt.spans, Source.slices_cons, Source.slices_append] at hs
  rw [Stmt.lowerSimple]
  split
  · rename_i hc
    refine Checks.reject.congr fun seen => ?_
    simp only [Bool.or_eq_true, bne_iff_ne, ne_eq, Bool.not_eq_true'] at hc
    simp only [Stmt.Regular, false_iff]
    intro h
    obtain ⟨⟨ho, hl, -⟩, -⟩ := h
    rcases hc with hc | hc
    · exact hc hl
    · exact Bool.false_ne_true (hc.symm.trans ho)
  · rename_i hc
    simp only [Bool.or_eq_true, bne_iff_ne, ne_eq, Bool.not_eq_true', not_or,
      Classical.not_not, Bool.not_eq_false] at hc
    obtain ⟨hl, ho⟩ := hc
    by_cases hd : op = .define
    · subst hd
      rw [if_pos rfl, Stmt.introduced, if_pos rfl]
      refine (lowerDefine_checks hl hs.2.2).congr fun seen => ?_
      simp only [Stmt.Regular, Stmt.Fresh, Stmt.introduced, ho, hl, if_true, true_and,
        forall_const]
      rw [and_left_comm, and_assoc]
    · rw [if_neg hd, Stmt.introduced, if_neg hd]
      refine (lowerAssign_checks hl hs.2.1 hs.2.2).congr fun seen => ?_
      simp only [Stmt.Regular, Stmt.Fresh, ho, hl, hd, if_false, true_and, false_implies,
        and_true]

theorem Stmt.lowerSimple_checks {s : Stmt} (hs : src.Slices s.spans) :
    Checks (s.lowerSimple src) (fun seen => s.isSimple = true ∧ s.Regular ∧ s.Fresh seen)
      s.introduced := by
  cases s with
  | assign lhs op rhs span =>
    exact (Stmt.lowerSimple_assign_checks hs).congr fun seen => by simp [Stmt.isSimple]
  | decl kind specs span =>
    rw [Stmt.spans, Source.slices_cons] at hs
    exact (lowerSpecs_checks hs.2).congr fun seen => by simp [Stmt.isSimple, Stmt.Regular,
      Stmt.Fresh, Stmt.introduced]
  | step operand op span =>
    rw [Stmt.spans, Source.slices_cons] at hs
    have h := (Lowering.expr_checks hs.2).map fun x => [Fragment.step x op]
    exact h.congr fun seen => by simp [Stmt.isSimple, Stmt.Regular, Stmt.Fresh]
  | ret | cond | loop | block | unsupported =>
    exact Checks.reject.congr fun seen => by simp [Stmt.isSimple]

theorem optionSimple_checks {s : Option Stmt} (hs : src.Slices (Stmt.optionSpans s)) :
    Checks (s.mapM (Stmt.lowerSimple src))
      (fun seen => ∀ i ∈ s, i.isSimple = true ∧ i.Regular ∧ i.Fresh seen)
      (s.elim [] Stmt.introduced) := by
  cases s with
  | none => exact (Checks.pure (none : Option (List Fragment))).congr fun seen => by simp
  | some s =>
    have h := (Stmt.lowerSimple_checks (s := s) hs).map some
    exact h.congr fun seen => by simp

end Recast
