import Recast.Proofs.Runs
import Recast.Proofs.Twins

/-!
# Runs over twins

Two runs, each over its own tree and its own text, where the trees are twins and the scopes let the
same names be seen (`Scope.Alike`). The runs go in parallel (`Comparison.Runs`): what the one yields
the other yields, where the one fails the other fails over the same construction, and what they lose
they lose in calls that correspond. So the places where a function is written do not matter
(`lower_of_unplaced_eq`).
-/

namespace Recast

open Target (Fragment)

/-! ## Faults, losses, scopes -/

/-- A cause without the source text that it repeats. The operator or the name that it is about is
kept. -/
def Cause.unquoted : Cause → Cause
  | .unsupportedExpression _ => .unsupportedExpression ""
  | .unsupportedOperator op _ => .unsupportedOperator op ""
  | .unsupportedStatement _ => .unsupportedStatement ""
  | .unsupportedTypeShape _ => .unsupportedTypeShape ""
  | .unknownPrimitiveType n => .unknownPrimitiveType n
  | .malformedCall _ => .malformedCall ""
  | .multipleReturn _ => .multipleReturn ""
  | .multipleReturnTypes _ => .multipleReturnTypes ""
  | .missingParameterName _ => .missingParameterName ""
  | .duplicateDeclaration n => .duplicateDeclaration n

/-- Scopes of the same policy that declare the same names at their level and see the same names,
whatever the levels around. -/
structure Scope.Alike (s t : Scope) : Prop where
  policy : s.policy = t.policy
  here : s.here = t.here
  seen : ∀ n, s.isDeclared n = t.isDeclared n

theorem Ident.Twin.isBlank_eq {c : Comparison} {x y : Ident} (h : x.Twin c y) :
    x.isBlank = y.isBlank :=
  congrArg (· == "_") h.name

namespace Comparison

/-- The same fault at nodes that correspond. -/
inductive Faults (c : Comparison) : Fault → Fault → Prop
  | reject {cause : String → Cause} {s t : Span} (hs : c.node s t)
      (hq : ∀ q r, (cause q).unquoted = (cause r).unquoted) :
      Faults c (c.left.reject cause s) (c.right.reject cause t)
  | named {cause : Cause} {s t : Span} (hs : c.node s t) :
      Faults c (.rejected ⟨cause, s⟩) (.rejected ⟨cause, t⟩)
  | unsliced {s t : Span} (hs : c.node s t) (hl : c.left.slice? s = none) :
      Faults c (.unsliced s c.left.size) (.unsliced t c.right.size)

/-- Both succeed, with results in a relation, or both fail alike. -/
inductive Results (c : Comparison) {α β : Type} (A : α → β → Prop) :
    Except Fault α → Except Fault β → Prop
  | ok {a : α} {b : β} (h : A a b) : Results c A (.ok a) (.ok b)
  | error {e f : Fault} (h : c.Faults e f) : Results c A (.error e) (.error f)

/-- Outcomes that correspond, with losses that correspond on the way to them. -/
structure Recordings (c : Comparison) {α β : Type} (A : α → β → Prop) (r : Recorded α)
    (s : Recorded β) : Prop where
  result : c.Results A r.result s.result
  lost : List.Forall₂ c.loss r.lost s.lost

/-- Progress of two runs that see the same names and lost the same. -/
structure Reached (c : Comparison) (p q : Progress) : Prop where
  scope : p.scope.Alike q.scope
  lost : List.Forall₂ c.loss p.lost q.lost

/-- The outcomes of two runs that went in parallel. -/
structure Runs (c : Comparison) {α β : Type} (A : α → β → Prop)
    (r : Except Fault α × Progress) (s : Except Fault β × Progress) : Prop where
  result : c.Results A r.1 s.1
  reached : c.Reached r.2 s.2

end Comparison

namespace Scope.Alike

variable {s t : Scope}

theorem refl (s : Scope) : s.Alike s := ⟨rfl, rfl, fun _ => rfl⟩

theorem isDeclaredHere_eq (h : s.Alike t) (n : String) :
    s.isDeclaredHere n = t.isDeclaredHere n := by
  unfold Scope.isDeclaredHere
  rw [h.here]

/-- Levels that are opened where the same names are seen. Isolated ones see none of them. -/
theorem child_of_seen (hp : s.policy = t.policy)
    (hs : s.policy = .chained → ∀ n, s.isDeclared n = t.isDeclared n) :
    s.child.Alike t.child := by
  refine ⟨?_, ?_, ?_⟩
  · rw [child_policy, child_policy, hp]
  · rw [child_here, child_here]
  · intro n
    rw [Bool.eq_iff_iff, isDeclared_child, isDeclared_child, ← hp]
    apply and_congr_right
    intro h
    rw [hs h n]

theorem child (h : s.Alike t) : s.child.Alike t.child := child_of_seen h.policy fun _ => h.seen

theorem declaring (h : s.Alike t) (n : String) :
    Scope.Alike { s with here := n :: s.here } { t with here := n :: t.here } := by
  refine ⟨h.policy, congrArg (n :: ·) h.here, ?_⟩
  intro m
  have hm := h.seen m
  unfold Scope.isDeclared Scope.isDeclaredHere at hm ⊢
  simp only [List.contains_cons, Bool.or_assoc]
  rw [hm]

end Scope.Alike

namespace Comparison

variable {c : Comparison} {α β γ δ : Type} {A : α → β → Prop} {B : γ → δ → Prop}

namespace Results

theorem map {r : Except Fault α} {s : Except Fault β} {f : α → γ} {g : β → δ}
    (h : c.Results A r s) (k : ∀ a b, A a b → B (f a) (g b)) : c.Results B (f <$> r) (g <$> s) := by
  cases h with
  | ok h => exact .ok (k _ _ h)
  | error h => exact .error h

/-- The source texts at spans that correspond are there or are missing together. -/
theorem quote {s t : Span} (h : c.node s t) :
    c.Results (fun a b => c.left.slice? s = some a ∧ c.right.slice? t = some b) (c.left.quote s)
      (c.right.quote t) := by
  have hs := c.sliced h
  unfold Source.quote
  cases hl : c.left.slice? s with
  | none =>
    have hr : c.right.slice? t = none := by simpa [hl] using hs.symm
    rw [hr]
    exact .error (.unsliced h hl)
  | some a =>
    obtain ⟨b, hr⟩ := Option.isSome_iff_exists.1 (hs ▸ hl ▸ rfl : (c.right.slice? t).isSome = true)
    rw [hr]
    exact .ok ⟨rfl, rfl⟩

end Results

namespace Recordings

theorem ok {a : α} {b : β} (h : A a b) :
    c.Recordings A (pure a : Recorded α) (pure b : Recorded β) :=
  ⟨.ok h, .nil⟩

theorem error {e f : Fault} (h : c.Faults e f) :
    c.Recordings A (.ofExcept (.error e)) (.ofExcept (.error f)) :=
  ⟨.error h, .nil⟩

theorem bind {r : Recorded α} {s : Recorded β} {f : α → Recorded γ} {g : β → Recorded δ}
    (h : c.Recordings A r s) (k : ∀ a b, A a b → c.Recordings B (f a) (g b)) :
    c.Recordings B (r >>= f) (s >>= g) := by
  rw [Recorded.bind_eq, Recorded.bind_eq]
  rcases r with ⟨r, xs⟩
  rcases s with ⟨s, ys⟩
  obtain ⟨hr, hl⟩ := h
  cases hr with
  | ok ha =>
    have hk := k _ _ ha
    exact ⟨hk.result, List.rel_append hl hk.lost⟩
  | error he => exact ⟨.error he, hl⟩

theorem degrade {loss : Loss} {s t : Span} (hs : c.node s t) (hc : c.call s t) :
    c.Recordings Eq (.degrade c.left loss s) (.degrade c.right loss t) := by
  have hq := Results.quote hs
  unfold Recorded.degrade
  generalize c.left.quote s = a at hq ⊢
  generalize c.right.quote t = b at hq ⊢
  cases hq with
  | ok h => exact ⟨.ok rfl, .cons (c.records hc h.1 h.2) .nil⟩
  | error h => exact .error h

end Recordings

theorem Reached.inner {p q : Progress} (h : c.Reached p q) : c.Reached p.inner q.inner :=
  ⟨h.scope.child, h.lost⟩

theorem Reached.record {p q : Progress} (h : c.Reached p q) {ds es : List Degradation}
    (hd : List.Forall₂ c.loss ds es) :
    c.Reached { p with lost := p.lost ++ ds } { q with lost := q.lost ++ es } :=
  ⟨h.scope, List.rel_append h.lost hd⟩

namespace Runs

variable {p q : Progress}

theorem bind {x : Lowering α} {y : Lowering β} {f : α → Lowering γ} {g : β → Lowering δ}
    (h : c.Runs A (x.runFrom p) (y.runFrom q))
    (k : ∀ a b r s, A a b → c.Reached r s → c.Runs B ((f a).runFrom r) ((g b).runFrom s)) :
    c.Runs B ((x >>= f).runFrom p) ((y >>= g).runFrom q) := by
  rw [Lowering.bind_runFrom, Lowering.bind_runFrom]
  rcases hx : x.runFrom p with ⟨rx, px⟩
  rcases hy : y.runFrom q with ⟨ry, py⟩
  rw [hx, hy] at h
  obtain ⟨hr, hp⟩ := h
  cases hr with
  | ok ha => exact k _ _ _ _ ha hp
  | error he => exact ⟨.error he, hp⟩

theorem pure {a : α} {b : β} (ha : A a b) (h : c.Reached p q) :
    c.Runs A ((Pure.pure a : Lowering α).runFrom p) ((Pure.pure b : Lowering β).runFrom q) :=
  ⟨.ok ha, h⟩

theorem map {x : Lowering α} {y : Lowering β} {f : α → γ} {g : β → δ}
    (h : c.Runs A (x.runFrom p) (y.runFrom q)) (k : ∀ a b, A a b → B (f a) (g b)) :
    c.Runs B ((f <$> x).runFrom p) ((g <$> y).runFrom q) := by
  rw [map_eq_pure_bind, map_eq_pure_bind]
  exact h.bind fun a b r s hab hrs => .pure (k a b hab) hrs

theorem lift {r : Except Fault α} {s : Except Fault β} (hr : c.Results A r s)
    (h : c.Reached p q) :
    c.Runs A ((Lowering.lift r).runFrom p) ((Lowering.lift s).runFrom q) :=
  ⟨hr, h⟩

theorem throw {e f : Fault} (he : c.Faults e f) (h : c.Reached p q) :
    c.Runs A ((throw e : Lowering α).runFrom p) ((throw f : Lowering β).runFrom q) :=
  ⟨.error he, h⟩

theorem reject {cause : String → Cause} {s t : Span} (hs : c.node s t) (h : c.Reached p q)
    (hq : ∀ q r, (cause q).unquoted = (cause r).unquoted := by exact fun _ _ => rfl) :
    c.Runs A ((Lowering.reject c.left cause s).runFrom p)
      ((Lowering.reject c.right cause t).runFrom q) :=
  ⟨.error (.reject hs hq), h⟩

/-- An optional part is there in both trees or in none. -/
theorem option {ε ζ : Type} {C : ε → ζ → Prop} {f : ε → Lowering α} {g : ζ → Lowering α}
    {a : Option ε} {b : Option ζ} (hab : Option.Rel C a b) (h : c.Reached p q)
    (k : ∀ x y, C x y → c.Runs Eq ((f x).runFrom p) ((g y).runFrom q)) :
    c.Runs Eq ((a.mapM f).runFrom p) ((b.mapM g).runFrom q) := by
  cases hab with
  | none => exact .pure rfl h
  | some hxy => exact (k _ _ hxy).map fun _ _ e => congrArg some e

theorem inChild {x : Lowering α} {y : Lowering β} (h : c.Reached p q)
    (k : c.Runs A (x.runFrom p.inner) (y.runFrom q.inner)) :
    c.Runs A ((Lowering.inChild x).runFrom p) ((Lowering.inChild y).runFrom q) :=
  ⟨k.result, h.scope, k.reached.lost⟩

theorem scope (h : c.Reached p q) :
    c.Runs Scope.Alike (Lowering.scope.runFrom p) (Lowering.scope.runFrom q) :=
  ⟨.ok h.scope, h⟩

theorem declare {x y : Ident} (hx : x.Twin c y) (h : c.Reached p q) :
    c.Runs (fun _ _ => True) ((Lowering.declare x).runFrom p)
      ((Lowering.declare y).runFrom q) := by
  rw [Lowering.declare_runFrom, Lowering.declare_runFrom]
  unfold Scope.declare?
  rw [hx.isBlank_eq, hx.name, h.scope.isDeclaredHere_eq]
  cases y.isBlank with
  | true => exact ⟨.ok trivial, h⟩
  | false =>
    cases q.scope.isDeclaredHere y.name with
    | true => exact ⟨.error (.named hx.span), h⟩
    | false => exact ⟨.ok trivial, h.scope.declaring y.name, h.lost⟩

end Runs

end Comparison

open Comparison (Runs Results Recordings)

variable {c : Comparison} {p q : Progress}

/-! ## Expressions and types -/

namespace Expr

theorem Twin.name?_rel {a b : Expr} (h : a.Twin c b) :
    Option.Rel (Ident.Twin c) a.name? b.name? := by
  cases h with
  | name hx => exact .some hx
  | literal | binary | unary | paren | call | selector | unsupported => exact .none

theorem Twin.idiom?_eq {a b : Expr} (h : a.Twin c b) : a.idiom? = b.idiom? := by
  have hq : a.qualified? = b.qualified? := by
    cases h with
    | selector hs he hx =>
      cases he with
      | name hy => exact congrArg some (Prod.ext hy.name hx.name)
      | literal | binary | unary | paren | call | selector | unsupported => rfl
    | literal | name | binary | unary | paren | call | unsupported => rfl
  unfold idiom?
  rw [hq]

theorem placeholder_alike {s t : Span} (hs : c.node s t) (hc : c.call s t) :
    c.Recordings Eq (placeholder c.left s) (placeholder c.right t) :=
  (Recordings.degrade hs hc).bind fun _ _ _ => .ok rfl

theorem dropped_alike {s t : Span} (hs : c.node s t) (hc : c.call s t) (count : Nat) :
    c.Recordings Eq (dropped c.left s count) (dropped c.right t count) := by
  cases count with
  | zero => exact .ok rfl
  | succ count => exact .degrade hs hc

mutual

theorem lower_alike : ∀ {a b : Expr}, a.Twin c b →
    c.Recordings Eq (a.lower c.left) (b.lower c.right)
  | .literal text s, _, .literal hs => .ok rfl
  | .name x, _, .name hx => .ok (congrArg Target.Expr.name hx.name)
  | .binary op l r s, _, .binary hs hl hr => by
    rw [lower, lower]
    split
    · refine (lower_alike hl).bind ?_
      rintro l' _ rfl
      refine (lower_alike hr).bind ?_
      rintro r' _ rfl
      exact .ok rfl
    · exact .error (.reject hs fun _ _ => rfl)
  | .unary op e s, _, .unary hs he => by
    rw [lower, lower]
    split
    · refine (lower_alike he).bind ?_
      rintro x _ rfl
      exact .ok rfl
    · exact .error (.reject hs fun _ _ => rfl)
  | .paren e s, _, .paren hs he => by
    rw [lower, lower]
    refine (lower_alike he).bind ?_
    rintro x _ rfl
    exact .ok rfl
  | .call callee args s, _, .call hs hc hf ha => by
    rw [lower, lower, hf.idiom?_eq]
    split
    · exact lowerMessage_alike hs hc ha
    · exact placeholder_alike hs hc
  | .selector e x s, _, .selector hs he hx => .error (.reject hs fun _ _ => rfl)
  | .unsupported s, _, .unsupported hs => .error (.reject hs fun _ _ => rfl)

theorem lowerMessage_alike : ∀ {as bs : List Expr} {s t : Span}, c.node s t → c.call s t →
    List.Forall₂ (Expr.Twin c) as bs →
    c.Recordings Eq (lowerMessage c.left s as) (lowerMessage c.right t bs)
  | [], _, s, t, hs, hc, .nil => .error (.reject hs fun _ _ => rfl)
  | first :: rest, _, s, t, hs, hc, .cons hf hr => by
    rw [lowerMessage, lowerMessage, hr.length_eq]
    refine (lower_alike hf).bind ?_
    rintro x _ rfl
    exact (dropped_alike hs hc _).bind fun _ _ _ => .ok rfl

end

end Expr

theorem TypeExpr.lower_alike {a b : TypeExpr} (h : a.Twin c b) :
    c.Results Eq (a.lower c.left) (b.lower c.right) := by
  cases h with
  | @named x y hx =>
    rw [TypeExpr.lower, TypeExpr.lower, hx.name]
    cases Primitive.ofName? y.name with
    | some t => exact .ok rfl
    | none => exact .error (.named hx.span)
  | unsupported hs => exact .error (.reject hs fun _ _ => rfl)

namespace Comparison.Runs

theorem expr {a b : Expr} (hab : a.Twin c b) (h : c.Reached p q) :
    c.Runs Eq ((Lowering.expr c.left a).runFrom p) ((Lowering.expr c.right b).runFrom q) := by
  have hr := Expr.lower_alike hab
  rw [Lowering.expr_runFrom, Lowering.expr_runFrom]
  exact ⟨hr.result, h.record hr.lost⟩

end Comparison.Runs

theorem exists_of_rel_some {α β : Type} {R : α → β → Prop} {a : α} {b : Option β}
    (h : Option.Rel R (some a) b) : ∃ y, b = some y ∧ R a y := by
  cases h with
  | some h => exact ⟨_, rfl, h⟩

theorem isEmpty_eq_of_forall₂ {α β : Type} {R : α → β → Prop} {as : List α} {bs : List β}
    (h : List.Forall₂ R as bs) : as.isEmpty = bs.isEmpty := by
  cases h with
  | nil => rfl
  | cons _ _ => rfl

/-! ## Simple statements -/

theorem lowerPair_parallel {op : Operator} {lhs lhs' rhs rhs' : Expr} (hl : lhs.Twin c lhs')
    (hr : rhs.Twin c rhs') (h : c.Reached p q) :
    c.Runs Eq ((lowerPair c.left op lhs rhs).runFrom p)
      ((lowerPair c.right op lhs' rhs').runFrom q) := by
  have hb : lhs.name?.any Ident.isBlank = lhs'.name?.any Ident.isBlank := by
    have hn := hl.name?_rel
    generalize lhs.name? = m at hn ⊢
    generalize lhs'.name? = n at hn ⊢
    cases hn with
    | none => rfl
    | some hx => exact hx.isBlank_eq
  unfold lowerPair
  rw [hb]
  refine (Runs.expr hr h).bind ?_
  rintro value _ r s rfl hrs
  split
  · exact .pure rfl hrs
  · refine (Runs.expr hl hrs).bind ?_
    rintro target _ r s rfl hrs
    exact .pure rfl hrs

theorem lowerAssign_parallel {op : Operator} {lhs lhs' rhs rhs' : List Expr}
    (hl : List.Forall₂ (Expr.Twin c) lhs lhs') (hr : List.Forall₂ (Expr.Twin c) rhs rhs')
    (h : c.Reached p q) :
    c.Runs Eq ((lowerAssign c.left op (lhs.zip rhs)).runFrom p)
      ((lowerAssign c.right op (lhs'.zip rhs')).runFrom q) := by
  induction hl generalizing rhs rhs' p q with
  | nil => exact .pure rfl h
  | cons hx _ ih =>
    cases hr with
    | nil => exact .pure rfl h
    | cons hy hr =>
      refine (lowerPair_parallel hx hy h).bind ?_
      rintro f _ r s rfl hrs
      refine (ih hr hrs).bind ?_
      rintro fs _ r s rfl hrs
      exact .pure rfl hrs

theorem lowerBinding_parallel {x y : Ident} {rhs rhs' : Expr} (hx : x.Twin c y)
    (hr : rhs.Twin c rhs') (h : c.Reached p q) :
    c.Runs Eq ((lowerBinding c.left x rhs).runFrom p)
      ((lowerBinding c.right y rhs').runFrom q) := by
  unfold lowerBinding
  rw [hx.isBlank_eq]
  refine (Runs.expr hr h).bind ?_
  rintro value _ r s rfl hrs
  split
  · exact .pure rfl hrs
  · refine (Runs.scope hrs).bind ?_
    intro s₁ s₂ r s hs hrs
    rw [hx.name, hs.seen]
    split
    · exact .pure rfl hrs
    · refine (Runs.declare hx hrs).bind ?_
      intro _ _ r s _ hrs
      exact .pure rfl hrs

theorem lowerBindings_parallel {xs ys : List Ident} {rhs rhs' : List Expr}
    (hx : List.Forall₂ (Ident.Twin c) xs ys) (hr : List.Forall₂ (Expr.Twin c) rhs rhs')
    (h : c.Reached p q) :
    c.Runs Eq ((lowerBindings c.left (xs.zip rhs)).runFrom p)
      ((lowerBindings c.right (ys.zip rhs')).runFrom q) := by
  induction hx generalizing rhs rhs' p q with
  | nil => exact .pure rfl h
  | cons hx _ ih =>
    cases hr with
    | nil => exact .pure rfl h
    | cons hy hr =>
      refine (lowerBinding_parallel hx hy h).bind ?_
      rintro f _ r s rfl hrs
      refine (ih hr hrs).bind ?_
      rintro fs _ r s rfl hrs
      exact .pure rfl hrs

/-- The left sides are names in both trees or not. -/
theorem Expr.Twin.names_rel {as bs : List Expr} (h : List.Forall₂ (Expr.Twin c) as bs) :
    Option.Rel (List.Forall₂ (Ident.Twin c)) (as.mapM Expr.name?) (bs.mapM Expr.name?) := by
  induction h with
  | nil => exact .some .nil
  | @cons a b as bs hab _ ih =>
    have hn := hab.name?_rel
    rw [List.mapM_cons, List.mapM_cons]
    generalize a.name? = m at hn ⊢
    generalize b.name? = n at hn ⊢
    cases hn with
    | none => exact .none
    | some hx =>
      generalize as.mapM Expr.name? = ms at ih ⊢
      generalize bs.mapM Expr.name? = ns at ih ⊢
      cases ih with
      | none => exact .none
      | some hxs => exact .some (.cons hx hxs)

theorem any_new_eq {s t : Scope} {xs ys : List Ident} (hs : s.Alike t)
    (h : List.Forall₂ (Ident.Twin c) xs ys) :
    (xs.any fun x => !x.isBlank && !s.isDeclaredHere x.name)
      = ys.any fun y => !y.isBlank && !t.isDeclaredHere y.name := by
  induction h with
  | nil => rfl
  | cons hx _ ih =>
    rw [List.any_cons, List.any_cons, ih, hx.isBlank_eq, hx.name, hs.isDeclaredHere_eq]

theorem find?_visible_rel {xs ys : List Ident} (h : List.Forall₂ (Ident.Twin c) xs ys) :
    Option.Rel (Ident.Twin c) (xs.find? fun x => !x.isBlank) (ys.find? fun y => !y.isBlank) := by
  induction h with
  | nil => exact .none
  | cons hx _ ih =>
    rw [List.find?_cons, List.find?_cons, hx.isBlank_eq]
    split
    · exact .some hx
    · exact ih

theorem repeatedName?_rel {s t : Scope} {xs ys : List Ident} (hs : s.Alike t)
    (h : List.Forall₂ (Ident.Twin c) xs ys) :
    Option.Rel (Ident.Twin c) (repeatedName? s xs) (repeatedName? t ys) := by
  have hfind := find?_visible_rel h
  unfold repeatedName?
  rw [any_new_eq hs h]
  split
  · exact .none
  · generalize xs.find? (fun x => !x.isBlank) = m at hfind ⊢
    generalize ys.find? (fun y => !y.isBlank) = n at hfind ⊢
    cases hfind with
    | some hx => exact .some hx
    | none =>
      cases h with
      | nil => exact .none
      | cons hx _ => exact .some hx

theorem lowerDefine_parallel {lhs lhs' rhs rhs' : List Expr} {s t : Span} (hs : c.node s t)
    (hl : List.Forall₂ (Expr.Twin c) lhs lhs') (hr : List.Forall₂ (Expr.Twin c) rhs rhs')
    (h : c.Reached p q) :
    c.Runs Eq ((lowerDefine c.left lhs rhs s).runFrom p)
      ((lowerDefine c.right lhs' rhs' t).runFrom q) := by
  have hnames := Expr.Twin.names_rel hl
  unfold lowerDefine
  generalize lhs.mapM Expr.name? = xs at hnames ⊢
  generalize lhs'.mapM Expr.name? = ys at hnames ⊢
  cases hnames with
  | none => exact .reject hs h
  | @some xs ys hx =>
    refine (Runs.scope h).bind ?_
    intro s₁ s₂ r s hs hrs
    have hrepeated := repeatedName?_rel hs hx
    generalize repeatedName? s₁ xs = m at hrepeated ⊢
    generalize repeatedName? s₂ ys = n at hrepeated ⊢
    cases hrepeated with
    | none => exact lowerBindings_parallel hx hr hrs
    | @some x y hxy =>
      have hfault : c.Faults (.rejected ⟨.duplicateDeclaration x.name, x.span⟩)
          (.rejected ⟨.duplicateDeclaration y.name, y.span⟩) := by
        rw [hxy.name]
        exact .named hxy.span
      exact .throw hfault hrs

theorem lowerName_parallel {kind : DeclKind} {type : Option Primitive} {x y : Ident}
    {v w : Option Expr} (hx : x.Twin c y) (hv : Option.Rel (Expr.Twin c) v w)
    (h : c.Reached p q) :
    c.Runs Eq ((lowerName c.left kind type x v).runFrom p)
      ((lowerName c.right kind type y w).runFrom q) := by
  unfold lowerName
  rw [hx.isBlank_eq, hx.name]
  split
  · cases hv with
    | none => exact .pure rfl h
    | some hv =>
      refine (Runs.expr hv h).bind ?_
      rintro value _ r s rfl hrs
      exact .pure rfl hrs
  · refine (Runs.declare hx h).bind ?_
    intro _ _ r s _ hrs
    refine (Runs.option hv hrs fun _ _ hv => .expr hv hrs).bind ?_
    rintro value _ r s rfl hrs
    exact .pure rfl hrs

theorem lowerNames_parallel {kind : DeclKind} {type : Option Primitive} {xs ys : List Ident}
    {vs ws : List Expr} (hx : List.Forall₂ (Ident.Twin c) xs ys)
    (hv : List.Forall₂ (Expr.Twin c) vs ws) (h : c.Reached p q) :
    c.Runs Eq ((lowerNames c.left kind type xs vs).runFrom p)
      ((lowerNames c.right kind type ys ws).runFrom q) := by
  induction hx generalizing vs ws p q with
  | nil => exact .pure rfl h
  | cons hx _ ih =>
    have hhead : Option.Rel (Expr.Twin c) vs.head? ws.head? ∧
        List.Forall₂ (Expr.Twin c) vs.tail ws.tail := by
      cases hv with
      | nil => exact ⟨.none, .nil⟩
      | cons hv hvs => exact ⟨.some hv, hvs⟩
    refine (lowerName_parallel hx hhead.1 h).bind ?_
    rintro fs _ r s rfl hrs
    refine (ih hhead.2 hrs).bind ?_
    rintro gs _ r s rfl hrs
    exact .pure rfl hrs

theorem ValueSpec.Twin.lower_parallel {kind : DeclKind} {a b : ValueSpec} (hab : a.Twin c b)
    (h : c.Reached p q) :
    c.Runs Eq ((a.lower c.left kind).runFrom p) ((b.lower c.right kind).runFrom q) := by
  unfold ValueSpec.lower
  rw [isEmpty_eq_of_forall₂ hab.values, hab.values.length_eq, hab.names.length_eq]
  refine (Runs.option hab.type h
    fun _ _ ht => .lift (TypeExpr.lower_alike ht) h).bind ?_
  rintro type _ r s rfl hrs
  split
  · exact .reject hab.span hrs
  · exact lowerNames_parallel hab.names hab.values hrs

theorem lowerSpecs_parallel {kind : DeclKind} {specs specs' : List ValueSpec}
    (hs : List.Forall₂ (ValueSpec.Twin c) specs specs') (h : c.Reached p q) :
    c.Runs Eq ((lowerSpecs c.left kind specs).runFrom p)
      ((lowerSpecs c.right kind specs').runFrom q) := by
  induction hs generalizing p q with
  | nil => exact .pure rfl h
  | cons hs _ ih =>
    refine (hs.lower_parallel h).bind ?_
    rintro fs _ r s rfl hrs
    refine (ih hrs).bind ?_
    rintro gs _ r s rfl hrs
    exact .pure rfl hrs

theorem Stmt.Twin.lowerSimple_parallel {a b : Stmt} (hab : a.Twin c b) (h : c.Reached p q) :
    c.Runs Eq ((a.lowerSimple c.left).runFrom p) ((b.lowerSimple c.right).runFrom q) := by
  cases hab with
  | assign hs hl hr =>
    rw [Stmt.lowerSimple, Stmt.lowerSimple, hl.length_eq, hr.length_eq]
    split
    · exact .reject hs h
    · split
      · exact lowerDefine_parallel hs hl hr h
      · exact lowerAssign_parallel hl hr h
  | decl hs hp => exact lowerSpecs_parallel hp h
  | step hs he =>
    refine (Runs.expr he h).bind ?_
    rintro x _ r s rfl hrs
    exact .pure rfl hrs
  | ret hs | cond hs | loop hs | unsupported hs => exact .reject hs h
  | block hb => exact .reject hb.span h

/-! ## Statements and blocks -/

/-- The test of a conditional, its body and what follows the body. -/
theorem Comparison.Runs.branches {α : Type} {test test' : Expr}
    {body body' : Lowering (List Target.Stmt)} {other other' : Lowering Target.Branch}
    {f : Target.Expr → List Target.Stmt → Target.Branch → α} (ht : test.Twin c test')
    (hb : ∀ {p q}, c.Reached p q → c.Runs Eq (body.runFrom p) (body'.runFrom q))
    (ho : ∀ {p q}, c.Reached p q → c.Runs Eq (other.runFrom p) (other'.runFrom q))
    (h : c.Reached p q) :
    c.Runs Eq
      ((do
        let t ← Lowering.expr c.left test
        let b ← body
        let o ← other
        return f t b o).runFrom p)
      ((do
        let t ← Lowering.expr c.right test'
        let b ← body'
        let o ← other'
        return f t b o).runFrom q) := by
  refine (Runs.expr ht h).bind ?_
  rintro t _ p₁ q₁ rfl h₁
  refine (hb h₁).bind ?_
  rintro b _ p₂ q₂ rfl h₂
  refine (ho h₂).bind ?_
  rintro o _ p₃ q₃ rfl h₃
  exact .pure rfl h₃

mutual

theorem Stmt.lower_parallel : ∀ (a : Stmt) {b : Stmt} {p q : Progress}, a.Twin c b →
    c.Reached p q → c.Runs Eq ((a.lower c.left).runFrom p) ((b.lower c.right).runFrom q)
  | .ret es s, b, p, q, hab, h => by
    cases hab with
    | ret hs hr =>
      cases hr with
      | nil => exact .pure rfl h
      | cons he hr =>
        cases hr with
        | nil =>
          rw [Stmt.lower, Stmt.lower]
          refine (Runs.expr he h).bind ?_
          rintro x _ r s rfl hrs
          exact .pure rfl hrs
        | cons _ _ => exact .reject hs h
  | .assign lhs op rhs s, b, p, q, hab, h => by
    have hsimple := hab.lowerSimple_parallel h
    cases hab
    rw [Stmt.lower, Stmt.lower]
    exact hsimple.map fun _ _ e => congrArg _ e
  | .decl kind specs s, b, p, q, hab, h => by
    have hsimple := hab.lowerSimple_parallel h
    cases hab
    rw [Stmt.lower, Stmt.lower]
    exact hsimple.map fun _ _ e => congrArg _ e
  | .step e op s, b, p, q, hab, h => by
    have hsimple := hab.lowerSimple_parallel h
    cases hab
    rw [Stmt.lower, Stmt.lower]
    exact hsimple.map fun _ _ e => congrArg _ e
  | .cond init test body other s, b, p, q, hab, h => by
    cases hab with
    | cond hs hi ht hb ho =>
      rw [Stmt.lower, Stmt.lower]
      refine .inChild h ((Runs.option hi h.inner fun _ _ hi =>
        hi.lowerSimple_parallel h.inner).bind ?_)
      rintro init' _ p₁ q₁ rfl h₁
      exact .branches ht (Block.lower_parallel body hb) (Stmt.lowerOther_parallel other ho) h₁
  | .loop init test post body s, b, p, q, hab, h => by
    cases hab with
    | loop hs hi ht hp hb =>
      rw [Stmt.lower, Stmt.lower]
      refine .inChild h ((Runs.option hi h.inner fun _ _ hi =>
        hi.lowerSimple_parallel h.inner).bind ?_)
      rintro init' _ p₁ q₁ rfl h₁
      refine (Runs.option ht h₁ fun _ _ ht => .expr ht h₁).bind ?_
      rintro test' _ p₂ q₂ rfl h₂
      refine (Runs.option hp h₂ fun _ _ hp => hp.lowerSimple_parallel h₂).bind ?_
      rintro post' _ p₃ q₃ rfl h₃
      refine (Block.lower_parallel body hb h₃).bind ?_
      rintro body' _ p₄ q₄ rfl h₄
      exact .pure rfl h₄
  | .block body, b, p, q, hab, h => by
    cases hab with
    | block hb =>
      rw [Stmt.lower, Stmt.lower]
      refine (Block.lower_parallel body hb h).bind ?_
      rintro body' _ r s rfl hrs
      exact .pure rfl hrs
  | .unsupported s, b, p, q, hab, h => by
    cases hab with
    | unsupported hs => exact .reject hs h

theorem Stmt.lowerOther_parallel : ∀ (a : Option Stmt) {b : Option Stmt} {p q : Progress},
    Option.Rel (Stmt.Twin c) a b → c.Reached p q →
    c.Runs Eq ((Stmt.lowerOther c.left a).runFrom p) ((Stmt.lowerOther c.right b).runFrom q)
  | none, b, p, q, hrel, h => by
    cases hrel
    exact .pure rfl h
  | some (.block body), b, p, q, hrel, h => by
    obtain ⟨b, rfl, hab⟩ := exists_of_rel_some hrel
    cases hab with
    | block hb =>
      rw [Stmt.lowerOther, Stmt.lowerOther]
      refine (Block.lower_parallel body hb h).bind ?_
      rintro body' _ r s rfl hrs
      exact .pure rfl hrs
  | some (.cond none test body other s), b, p, q, hrel, h => by
    obtain ⟨b, rfl, hab⟩ := exists_of_rel_some hrel
    cases hab with
    | cond hs hi ht hb ho =>
      cases hi
      rw [Stmt.lowerOther, Stmt.lowerOther]
      exact .branches ht (Block.lower_parallel body hb) (Stmt.lowerOther_parallel other ho) h
  | some (.cond (some init) test body other s), b, p, q, hrel, h => by
    obtain ⟨b, rfl, hab⟩ := exists_of_rel_some hrel
    cases hab with
    | cond hs hi ht hb ho =>
      obtain ⟨init', rfl, hi'⟩ := exists_of_rel_some hi
      rw [Stmt.lowerOther, Stmt.lowerOther]
      refine .inChild h ((hi'.lowerSimple_parallel h.inner).bind ?_)
      rintro init' _ p₁ q₁ rfl h₁
      exact .branches ht (Block.lower_parallel body hb) (Stmt.lowerOther_parallel other ho) h₁
  | some (.ret ..), b, p, q, hrel, h | some (.assign ..), b, p, q, hrel, h
  | some (.decl ..), b, p, q, hrel, h | some (.step ..), b, p, q, hrel, h
  | some (.loop ..), b, p, q, hrel, h | some (.unsupported _), b, p, q, hrel, h => by
    obtain ⟨b, rfl, hab⟩ := exists_of_rel_some hrel
    have hs := hab.span
    cases hab
    exact .reject hs h

theorem Stmt.lowerList_parallel : ∀ (as : List Stmt) {bs : List Stmt} {p q : Progress},
    List.Forall₂ (Stmt.Twin c) as bs → c.Reached p q →
    c.Runs Eq ((Stmt.lowerList c.left as).runFrom p) ((Stmt.lowerList c.right bs).runFrom q)
  | [], bs, p, q, hab, h => by
    cases hab
    exact .pure rfl h
  | a :: as, bs, p, q, hab, h => by
    cases hab with
    | cons ha has =>
      rw [Stmt.lowerList, Stmt.lowerList]
      refine (Stmt.lower_parallel a ha h).bind ?_
      rintro t _ r s rfl hrs
      refine (Stmt.lowerList_parallel as has hrs).bind ?_
      rintro ts _ r s rfl hrs
      exact .pure rfl hrs

theorem Block.lower_parallel : ∀ (a : Block) {b : Block} {p q : Progress}, a.Twin c b →
    c.Reached p q → c.Runs Eq ((a.lower c.left).runFrom p) ((b.lower c.right).runFrom q)
  | .mk ss s, b, p, q, hab, h => by
    cases hab with
    | mk hs hss =>
      rw [Block.lower, Block.lower]
      exact .inChild h (Stmt.lowerList_parallel ss hss h.inner)

end

/-! ## Functions -/

theorem lowerParamNames_parallel {type : Primitive} {xs ys : List Ident}
    (hx : List.Forall₂ (Ident.Twin c) xs ys) (h : c.Reached p q) :
    c.Runs Eq ((lowerParamNames type xs).runFrom p) ((lowerParamNames type ys).runFrom q) := by
  induction hx generalizing p q with
  | nil => exact .pure rfl h
  | cons hx _ ih =>
    refine (Runs.declare hx h).bind ?_
    intro _ _ r s _ hrs
    refine (ih hrs).bind ?_
    rintro params _ r s rfl hrs
    rw [hx.name]
    exact .pure rfl hrs

theorem Field.Twin.lowerParam_parallel {a b : Field} (hab : a.Twin c b) (h : c.Reached p q) :
    c.Runs Eq ((a.lowerParam c.left).runFrom p) ((b.lowerParam c.right).runFrom q) := by
  unfold Field.lowerParam
  rw [isEmpty_eq_of_forall₂ hab.names]
  refine (Runs.lift (TypeExpr.lower_alike hab.type) h).bind ?_
  rintro type _ r s rfl hrs
  split
  · exact .reject hab.span hrs
  · exact lowerParamNames_parallel hab.names hrs

theorem lowerParams_parallel {fields fields' : List Field}
    (hf : List.Forall₂ (Field.Twin c) fields fields') (h : c.Reached p q) :
    c.Runs Eq ((lowerParams c.left fields).runFrom p)
      ((lowerParams c.right fields').runFrom q) := by
  induction hf generalizing p q with
  | nil => exact .pure rfl h
  | cons hf _ ih =>
    refine (hf.lowerParam_parallel h).bind ?_
    rintro ps _ r s rfl hrs
    refine (ih hrs).bind ?_
    rintro qs _ r s rfl hrs
    exact .pure rfl hrs

theorem FieldList.Twin.arity_eq {a b : FieldList} (h : a.Twin c b) : a.arity = b.arity := by
  obtain ⟨fields, span⟩ := a
  obtain ⟨fields', span'⟩ := b
  obtain ⟨hf, -⟩ := h
  change List.Forall₂ (Field.Twin c) fields fields' at hf
  unfold FieldList.arity
  induction hf with
  | nil => rfl
  | cons hf _ ih =>
    rw [List.foldr_cons, List.foldr_cons, ih, Field.arity, Field.arity, hf.names.length_eq]

theorem FieldList.Twin.lowerResult_alike {a b : FieldList} (h : a.Twin c b) :
    c.Results Eq (a.lowerResult c.left) (b.lowerResult c.right) := by
  unfold FieldList.lowerResult
  rw [h.arity_eq]
  split
  · exact .error (.reject h.span fun _ _ => rfl)
  · obtain ⟨fields, span⟩ := a
    obtain ⟨fields', span'⟩ := b
    cases h.fields with
    | nil => exact .ok rfl
    | cons hf _ => exact (TypeExpr.lower_alike hf.type).map fun _ _ e => congrArg some e

theorem Func.lowerParts_parallel {f g : Func} (hfg : f.Twin c g) (h : c.Reached p q) :
    c.Runs Eq ((f.lowerParts c.left).runFrom p) ((g.lowerParts c.right).runFrom q) := by
  obtain ⟨x, params, results, body, span⟩ := f
  obtain ⟨y, params', results', body', span'⟩ := g
  obtain ⟨hx, hp, hr, hb⟩ := hfg
  have hresult : c.Results Eq (results.elim (.ok none) (FieldList.lowerResult c.left))
      (results'.elim (.ok none) (FieldList.lowerResult c.right)) := by
    cases hr with
    | none => exact .ok rfl
    | some hr => exact hr.lowerResult_alike
  unfold Func.lowerParts
  refine (Runs.lift hresult h).bind ?_
  rintro result _ p₁ q₁ rfl h₁
  refine (lowerParams_parallel hp.fields h₁).bind ?_
  rintro params _ p₂ q₂ rfl h₂
  have hbody : c.Runs Eq ((body.elim (pure []) (Block.lower c.left)).runFrom p₂)
      ((body'.elim (pure []) (Block.lower c.right)).runFrom q₂) := by
    cases hb with
    | none => exact .pure rfl h₂
    | some hb => exact Block.lower_parallel _ hb h₂
  refine hbody.bind ?_
  rintro body _ p₃ q₃ rfl h₃
  exact .pure (congrArg (Target.Func.mk result · params body) hx) h₃

end Recast
