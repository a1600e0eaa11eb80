import Recast.Lowering.Func

/-!
# Successful runs

What a run of a lowering step did, read off the fact that it succeeded. The first part opens the
steps that all others are made of (`Lowering.bind_ok`, `Lowering.expr_ok`, `Lowering.inChild_ok`).
The second part has one lemma for each construction: the runs of its parts, in order, with the
progress handed from one to the next (`Stmt.lower_cond_ok`, `Block.lower_ok`), so that an
induction over statements never opens the lowering itself.
-/

namespace Recast

open Target (Fragment)

/-- The progress inside a level that is opened at `p`. -/
def Progress.inner (p : Progress) : Progress := { p with scope := p.scope.child }

@[simp] theorem Progress.inner_lost (p : Progress) : p.inner.lost = p.lost := rfl

@[simp] theorem Progress.inner_scope (p : Progress) : p.inner.scope = p.scope.child := rfl

/-! ## Expressions -/

section Exprs

variable {src : Source} {x : Target.Expr} {ds : List Degradation}

theorem except_bind_ok {α β : Type} {r : Except Fault α} {f : α → Except Fault β} {b : β} :
    (r >>= f) = .ok b ↔ ∃ a, r = .ok a ∧ f a = .ok b := by
  cases r <;> simp [bind, Except.bind]

namespace Recorded

variable {α β : Type}

theorem pure_ok {a b : α} : (pure a : Recorded α) = ⟨.ok b, ds⟩ ↔ b = a ∧ ds = [] := by
  change (⟨.ok a, []⟩ : Recorded α) = ⟨.ok b, ds⟩ ↔ _
  simp only [Recorded.mk.injEq, Except.ok.injEq, eq_comm]

theorem ofExcept_ok {r : Except Fault α} {a : α} :
    ofExcept r = ⟨.ok a, ds⟩ ↔ r = .ok a ∧ ds = [] := by
  simp only [ofExcept, Recorded.mk.injEq, eq_comm]

theorem bind_eq (r : Recorded α) (f : α → Recorded β) :
    (r >>= f) =
      match r.result with
      | .ok a => ⟨(f a).result, r.lost ++ (f a).lost⟩
      | .error e => ⟨.error e, r.lost⟩ :=
  rfl

theorem bind_ok {r : Recorded α} {f : α → Recorded β} {b : β} :
    (r >>= f) = ⟨.ok b, ds⟩ ↔
      ∃ a xs ys, r = ⟨.ok a, xs⟩ ∧ f a = ⟨.ok b, ys⟩ ∧ ds = xs ++ ys := by
  rw [bind_eq]
  rcases r with ⟨_ | a, xs⟩
  · simp
  · simp only [Recorded.mk.injEq, Except.ok.injEq]
    constructor
    · rintro ⟨hb, rfl⟩
      exact ⟨a, xs, (f a).lost, ⟨rfl, rfl⟩, by rw [← hb], rfl⟩
    · rintro ⟨_, _, ys, ⟨rfl, rfl⟩, hf, rfl⟩
      rw [hf]
      exact ⟨rfl, rfl⟩

theorem bind_error {r : Recorded α} {f : α → Recorded β} {e : Fault} :
    (r >>= f).result = .error e ↔
      r.result = .error e ∨ ∃ a, r.result = .ok a ∧ (f a).result = .error e := by
  rw [bind_eq]
  rcases r with ⟨_ | a, xs⟩ <;> simp

theorem degrade_ok {loss : Loss} {span : Span} {u : Unit} :
    degrade src loss span = ⟨.ok u, ds⟩ ↔
      ∃ t, src.slice? span = some t ∧ ds = [⟨loss, t, span⟩] := by
  unfold degrade Source.quote
  cases src.slice? span with
  | none => simp [ofExcept]
  | some t => simp [eq_comm]

end Recorded

namespace Expr

theorem lower_binary_ok {op : Operator} {l r : Expr} {span : Span} :
    (Expr.binary op l r span).lower src = ⟨.ok x, ds⟩ ↔
      ∃ l' ls r' rs, l.lower src = ⟨.ok l', ls⟩ ∧ r.lower src = ⟨.ok r', rs⟩ ∧
        x = .binary op l' r' ∧ ds = ls ++ rs := by
  have ho : op.isBinary = true := rfl
  rw [Expr.lower, if_pos ho]
  simp only [Recorded.bind_ok, Recorded.pure_ok]
  constructor
  · intro h
    obtain ⟨l', ls, _, hl, ⟨r', rs, _, hr, ⟨rfl, rfl⟩, rfl⟩, rfl⟩ := h
    exact ⟨l', ls, r', rs, hl, hr, rfl, by rw [List.append_nil]⟩
  · intro h
    obtain ⟨l', ls, r', rs, hl, hr, rfl, rfl⟩ := h
    exact ⟨l', ls, rs, hl, ⟨r', rs, [], hr, ⟨rfl, rfl⟩, by rw [List.append_nil]⟩, rfl⟩

/-- What is put around an expression loses nothing of its own. -/
theorem wrapped_ok {r : Recorded Target.Expr} {f : Target.Expr → Target.Expr} :
    (do
      let e ← r
      return f e) = (⟨.ok x, ds⟩ : Recorded Target.Expr) ↔ ∃ e, r = ⟨.ok e, ds⟩ ∧ x = f e := by
  simp only [Recorded.bind_ok, Recorded.pure_ok]
  constructor
  · intro h
    obtain ⟨e, es, _, he, ⟨rfl, rfl⟩, rfl⟩ := h
    exact ⟨e, by rw [he, List.append_nil], rfl⟩
  · intro h
    obtain ⟨e, he, rfl⟩ := h
    exact ⟨e, ds, [], he, ⟨rfl, rfl⟩, by rw [List.append_nil]⟩

theorem lower_unary_ok {op : Operator} {e : Expr} {span : Span} :
    (Expr.unary op e span).lower src = ⟨.ok x, ds⟩ ↔
      op.isUnary = true ∧ ∃ e', e.lower src = ⟨.ok e', ds⟩ ∧ x = .unary op e' := by
  rw [Expr.lower]
  split
  · rename_i ho
    rw [wrapped_ok]
    simp only [ho, true_and]
  · rename_i ho
    simp [ho, Recorded.ofExcept_ok]

theorem lower_paren_ok {e : Expr} {span : Span} :
    (Expr.paren e span).lower src = ⟨.ok x, ds⟩ ↔
      ∃ e', e.lower src = ⟨.ok e', ds⟩ ∧ x = .paren e' := by
  rw [Expr.lower]
  exact wrapped_ok

theorem placeholder_ok {span : Span} :
    placeholder src span = ⟨.ok x, ds⟩ ↔
      ∃ t, src.slice? span = some t ∧ x = .placeholder ∧ ds = [⟨.unrecognizedCall, t, span⟩] := by
  simp only [placeholder, Recorded.bind_ok, Recorded.degrade_ok, Recorded.pure_ok]
  constructor
  · intro h
    obtain ⟨_, _, _, ⟨t, ht, rfl⟩, ⟨rfl, rfl⟩, rfl⟩ := h
    exact ⟨t, ht, rfl, rfl⟩
  · intro h
    obtain ⟨t, ht, rfl, rfl⟩ := h
    exact ⟨(), _, _, ⟨t, ht, rfl⟩, ⟨rfl, rfl⟩, rfl⟩

theorem dropped_ok {span : Span} {n : Nat} {u : Unit} :
    dropped src span n = ⟨.ok u, ds⟩ ↔
      (n = 0 ∧ ds = []) ∨
        ∃ t, 0 < n ∧ src.slice? span = some t ∧ ds = [⟨.droppedArguments n, t, span⟩] := by
  cases n with
  | zero => simp [dropped, Recorded.pure_ok]
  | succ n => simp [dropped, Recorded.degrade_ok]

theorem lowerMessage_ok {span : Span} {args : List Expr} :
    lowerMessage src span args = ⟨.ok x, ds⟩ ↔
      ∃ first rest x' xs ys, args = first :: rest ∧ first.lower src = ⟨.ok x', xs⟩ ∧
        dropped src span rest.length = ⟨.ok (), ys⟩ ∧ x = .message x' ∧ ds = xs ++ ys := by
  cases args with
  | nil => simp [lowerMessage, Recorded.ofExcept_ok]
  | cons first rest =>
    simp only [lowerMessage, Recorded.bind_ok, Recorded.pure_ok]
    constructor
    · intro h
      obtain ⟨x', xs, _, hx, ⟨_, ys, _, hy, ⟨rfl, rfl⟩, rfl⟩, rfl⟩ := h
      exact ⟨first, rest, x', xs, ys, rfl, hx, hy, rfl, by rw [List.append_nil]⟩
    · intro h
      obtain ⟨_, _, x', xs, ys, ⟨⟩, hx, hy, rfl, rfl⟩ := h
      exact ⟨x', xs, ys, hx, ⟨(), ys, [], hy, ⟨rfl, rfl⟩, by rw [List.append_nil]⟩, rfl⟩

end Expr

end Exprs

/-! ## Steps -/

namespace Lowering

variable {α β : Type} {p q : Progress}

theorem bind_runFrom (x : Lowering α) (f : α → Lowering β) (p : Progress) :
    (x >>= f).runFrom p =
      match x.runFrom p with
      | (.ok a, r) => (f a).runFrom r
      | (.error e, r) => (.error e, r) := by
  change ExceptT.bindCont f (x p).1 (x p).2 = _
  unfold runFrom
  rcases x p with ⟨_ | a, r⟩ <;> rfl

theorem bind_ok {x : Lowering α} {f : α → Lowering β} {b : β} :
    (x >>= f).runFrom p = (.ok b, q) ↔
      ∃ a r, x.runFrom p = (.ok a, r) ∧ (f a).runFrom r = (.ok b, q) := by
  rw [bind_runFrom]
  rcases x.runFrom p with ⟨_ | a, r⟩
  · simp
  · constructor
    · intro h
      exact ⟨a, r, rfl, h⟩
    · intro h
      obtain ⟨_, _, ⟨⟩, h⟩ := h
      exact h

theorem pure_ok {a b : α} : (pure a : Lowering α).runFrom p = (.ok b, q) ↔ b = a ∧ q = p := by
  change ((Except.ok a : Except Fault α), p) = (.ok b, q) ↔ _
  simp only [Prod.mk.injEq, Except.ok.injEq, eq_comm]

theorem map_runFrom (f : α → β) (x : Lowering α) (p : Progress) :
    (f <$> x).runFrom p = (f <$> (x.runFrom p).1, (x.runFrom p).2) := by
  rw [map_eq_pure_bind, bind_runFrom]
  rcases x.runFrom p with ⟨_ | a, q⟩ <;> rfl

theorem map_ok {x : Lowering α} {f : α → β} {b : β} :
    (f <$> x).runFrom p = (.ok b, q) ↔ ∃ a, x.runFrom p = (.ok a, q) ∧ b = f a := by
  rw [map_eq_pure_bind, bind_ok]
  constructor
  · intro h
    obtain ⟨a, r, h, e⟩ := h
    obtain ⟨rfl, rfl⟩ := pure_ok.1 e
    exact ⟨a, h, rfl⟩
  · intro h
    obtain ⟨a, h, rfl⟩ := h
    exact ⟨a, q, h, rfl⟩

theorem bind_pure_ok {x : Lowering α} {f : α → β} {b : β} :
    (do let a ← x; return f a).runFrom p = (.ok b, q) ↔
      ∃ a, x.runFrom p = (.ok a, q) ∧ b = f a := by
  rw [← map_eq_pure_bind, map_ok]

/-- Two steps, the second of which does not depend on what the first yields. -/
theorem both_ok {γ : Type} {x : Lowering α} {y : Lowering β} {f : α → β → γ} {c : γ} :
    (do let a ← x; let b ← y; return f a b).runFrom p = (.ok c, q) ↔
      ∃ a r b, x.runFrom p = (.ok a, r) ∧ y.runFrom r = (.ok b, q) ∧ c = f a b := by
  rw [bind_ok]
  simp only [bind_pure_ok]
  constructor
  · intro h
    obtain ⟨a, r, ha, b, hb, e⟩ := h
    exact ⟨a, r, b, ha, hb, e⟩
  · intro h
    obtain ⟨a, r, b, ha, hb, e⟩ := h
    exact ⟨a, r, ha, b, hb, e⟩

theorem lift_ok {r : Except Fault α} {a : α} :
    (lift r).runFrom p = (.ok a, q) ↔ r = .ok a ∧ q = p := by
  simp only [lift, runFrom, Prod.mk.injEq, eq_comm]

theorem reject_ok {src : Source} {cause : String → Cause} {span : Span} {a : α} :
    ¬ (reject src cause span : Lowering α).runFrom p = (.ok a, q) := by
  simp [reject, lift_ok]

theorem throw_ok {e : Fault} {a : α} : ¬ (throw e : Lowering α).runFrom p = (.ok a, q) := by
  change ¬ ((Except.error e : Except Fault α), p) = (.ok a, q)
  simp

theorem scope_runFrom (p : Progress) : Lowering.scope.runFrom p = (.ok p.scope, p) :=
  rfl

theorem scope_ok {s : Scope} : Lowering.scope.runFrom p = (.ok s, q) ↔ s = p.scope ∧ q = p := by
  simp only [Lowering.scope, runFrom, Prod.mk.injEq, Except.ok.injEq, eq_comm]

theorem expr_runFrom (src : Source) (e : Expr) (p : Progress) :
    (expr src e).runFrom p =
      ((e.lower src).result, { p with lost := p.lost ++ (e.lower src).lost }) :=
  rfl

theorem expr_ok {src : Source} {e : Expr} {x : Target.Expr} :
    (expr src e).runFrom p = (.ok x, q) ↔
      ∃ ds, e.lower src = ⟨.ok x, ds⟩ ∧ q = { p with lost := p.lost ++ ds } := by
  rw [expr_runFrom]
  rcases e.lower src with ⟨r, ds⟩
  simp only [Prod.mk.injEq, Recorded.mk.injEq]
  constructor
  · rintro ⟨rfl, rfl⟩
    exact ⟨ds, ⟨rfl, rfl⟩, rfl⟩
  · rintro ⟨_, ⟨rfl, rfl⟩, rfl⟩
    exact ⟨rfl, rfl⟩

theorem declare_runFrom (x : Ident) (p : Progress) :
    (declare x).runFrom p =
      match p.scope.declare? x with
      | some s => (.ok (), { p with scope := s })
      | none => (.error (.rejected ⟨.duplicateDeclaration x.name, x.span⟩), p) :=
  rfl

theorem declare_ok {x : Ident} {u : Unit} :
    (declare x).runFrom p = (.ok u, q) ↔
      ∃ s, p.scope.declare? x = some s ∧ q = { p with scope := s } := by
  rw [declare_runFrom]
  cases p.scope.declare? x with
  | none => simp
  | some s => simp [eq_comm]

theorem inChild_runFrom (x : Lowering α) (p : Progress) :
    (inChild x).runFrom p =
      ((x.runFrom p.inner).1, ⟨p.scope, (x.runFrom p.inner).2.lost⟩) :=
  rfl

theorem inChild_ok {x : Lowering α} {a : α} :
    (inChild x).runFrom p = (.ok a, q) ↔
      ∃ r, x.runFrom p.inner = (.ok a, r) ∧ q = { r with scope := p.scope } := by
  change ((x.runFrom p.inner).1, { (x.runFrom p.inner).2 with scope := p.scope }) = _ ↔ _
  rcases x.runFrom p.inner with ⟨a', r⟩
  simp only [Prod.mk.injEq]
  constructor
  · intro h
    obtain ⟨rfl, rfl⟩ := h
    exact ⟨r, ⟨rfl, rfl⟩, rfl⟩
  · intro h
    obtain ⟨_, ⟨rfl, rfl⟩, rfl⟩ := h
    exact ⟨rfl, rfl⟩

/-- The parts of a phrase with a header are lowered one after the other in a level of their own. -/
theorem inChild_parts_ok {γ δ ε : Type} {x : Lowering α} {y : Lowering β} {z : Lowering γ}
    {w : Lowering δ} {f : α → β → γ → δ → ε} {e : ε} :
    (inChild do
      let a ← x
      let b ← y
      let c ← z
      let d ← w
      return f a b c d).runFrom p = (.ok e, q) ↔
      ∃ a p₁ b p₂ c p₃ d p₄, x.runFrom p.inner = (.ok a, p₁) ∧ y.runFrom p₁ = (.ok b, p₂) ∧
        z.runFrom p₂ = (.ok c, p₃) ∧ w.runFrom p₃ = (.ok d, p₄) ∧
        e = f a b c d ∧ q = { p₄ with scope := p.scope } := by
  simp only [inChild_ok, bind_ok, pure_ok]
  constructor
  · intro h
    obtain ⟨r, ⟨a, p₁, hx, b, p₂, hy, c, p₃, hz, d, _, hw, rfl, rfl⟩, rfl⟩ := h
    exact ⟨a, p₁, b, p₂, c, p₃, d, r, hx, hy, hz, hw, rfl, rfl⟩
  · intro h
    obtain ⟨a, p₁, b, p₂, c, p₃, d, p₄, hx, hy, hz, hw, rfl, rfl⟩ := h
    exact ⟨p₄, ⟨a, p₁, hx, b, p₂, hy, c, p₃, hz, d, p₄, hw, rfl, rfl⟩, rfl⟩

/-- An optional part is lowered if it is there. -/
theorem mapM_none_ok {f : α → Lowering β} {b : Option β} :
    ((none : Option α).mapM f).runFrom p = (.ok b, q) ↔ b = none ∧ q = p :=
  pure_ok

theorem mapM_some_ok {f : α → Lowering β} {a : α} {b : Option β} :
    ((some a).mapM f).runFrom p = (.ok b, q) ↔
      ∃ c, (f a).runFrom p = (.ok c, q) ∧ b = some c :=
  map_ok

theorem mapM_lift_runFrom (f : α → Except Fault β) (a : Option α) (p : Progress) :
    (a.mapM fun a => lift (f a)).runFrom p = (a.mapM f, p) := by
  cases a with
  | none => rfl
  | some a => exact map_runFrom some (lift (f a)) p

theorem mapM_lift_ok {f : α → Except Fault β} {a : Option α} {b : Option β} :
    (a.mapM fun a => lift (f a)).runFrom p = (.ok b, q) ↔ a.mapM f = .ok b ∧ q = p := by
  rw [mapM_lift_runFrom, Prod.mk.injEq, eq_comm (b := q)]

theorem expr_scope {src : Source} {e : Expr} {x : Target.Expr}
    (h : (expr src e).runFrom p = (.ok x, q)) : q.scope = p.scope := by
  obtain ⟨ds, -, rfl⟩ := expr_ok.1 h
  rfl

theorem optionExpr_scope {src : Source} {e : Option Expr} {x : Option Target.Expr}
    (h : (e.mapM (expr src)).runFrom p = (.ok x, q)) : q.scope = p.scope := by
  cases e with
  | none => rw [(mapM_none_ok.1 h).2]
  | some e =>
    obtain ⟨y, hy, -⟩ := mapM_some_ok.1 h
    exact expr_scope hy

end Lowering

/-- The progress in which a name has been added to the current level. -/
def Progress.declaring (p : Progress) (name : String) : Progress :=
  { p with scope := { p.scope with here := name :: p.scope.here } }

/-- Declaring a name that is not blank adds it to the current level, which did not have it. -/
theorem Lowering.declare_ok_of_not_blank {p q : Progress} {x : Ident} {u : Unit}
    (hb : x.isBlank = false) :
    (Lowering.declare x).runFrom p = (.ok u, q) ↔
      p.scope.isDeclaredHere x.name = false ∧ q = p.declaring x.name := by
  rw [Lowering.declare_ok]
  unfold Scope.declare?
  cases h : p.scope.isDeclaredHere x.name <;> simp [hb, Progress.declaring]

/-! ## Simple statements -/

variable {src : Source} {p q : Progress}

/-- What one pair of an assignment did: on the left of `=` the blank name is not looked at. -/
inductive PairRun (src : Source) (p q : Progress) (op : Operator) (lhs rhs : Expr) :
    Fragment → Prop
  | discard {value : Target.Expr} (hb : op = .assign ∧ lhs.name?.any Ident.isBlank = true)
      (hv : (Lowering.expr src rhs).runFrom p = (.ok value, q)) :
      PairRun src p q op lhs rhs (.discard value)
  | assign {value target : Target.Expr} {r : Progress}
      (hb : ¬ (op = .assign ∧ lhs.name?.any Ident.isBlank = true))
      (hv : (Lowering.expr src rhs).runFrom p = (.ok value, r))
      (ht : (Lowering.expr src lhs).runFrom r = (.ok target, q)) :
      PairRun src p q op lhs rhs (.assign target op value)

theorem lowerPair_ok {op : Operator} {lhs rhs : Expr} {f : Fragment}
    (h : (lowerPair src op lhs rhs).runFrom p = (.ok f, q)) : PairRun src p q op lhs rhs f := by
  unfold lowerPair at h
  obtain ⟨value, r, hv, h⟩ := Lowering.bind_ok.1 h
  split at h
  · rename_i hb
    obtain ⟨rfl, rfl⟩ := Lowering.pure_ok.1 h
    exact .discard hb hv
  · rename_i hb
    obtain ⟨target, r', ht, h⟩ := Lowering.bind_ok.1 h
    obtain ⟨rfl, rfl⟩ := Lowering.pure_ok.1 h
    exact .assign hb hv ht

theorem lowerAssign_cons_ok {op : Operator} {lhs rhs : Expr} {pairs : List (Expr × Expr)}
    {fs : List Fragment} :
    (lowerAssign src op ((lhs, rhs) :: pairs)).runFrom p = (.ok fs, q) ↔
      ∃ f r gs, (lowerPair src op lhs rhs).runFrom p = (.ok f, r) ∧
        (lowerAssign src op pairs).runFrom r = (.ok gs, q) ∧ fs = f :: gs := by
  rw [lowerAssign]
  exact Lowering.both_ok

/-- What one binding of `:=` did. -/
inductive BindingRun (src : Source) (p : Progress) (x : Ident) (rhs : Expr) :
    Fragment → Progress → Prop
  | discard {value : Target.Expr} {q : Progress} (hb : x.isBlank = true)
      (hv : (Lowering.expr src rhs).runFrom p = (.ok value, q)) :
      BindingRun src p x rhs (.discard value) q
  | rebind {value : Target.Expr} {q : Progress} (hb : x.isBlank = false)
      (hd : p.scope.isDeclared x.name = true)
      (hv : (Lowering.expr src rhs).runFrom p = (.ok value, q)) :
      BindingRun src p x rhs (.rebind x.name value) q
  | bind {value : Target.Expr} {q : Progress} (hb : x.isBlank = false)
      (hd : p.scope.isDeclared x.name = false)
      (hv : (Lowering.expr src rhs).runFrom p = (.ok value, q)) :
      BindingRun src p x rhs (.bind x.name value) (q.declaring x.name)

theorem lowerBinding_ok {x : Ident} {rhs : Expr} {f : Fragment}
    (h : (lowerBinding src x rhs).runFrom p = (.ok f, q)) : BindingRun src p x rhs f q := by
  unfold lowerBinding at h
  obtain ⟨value, r, hv, h⟩ := Lowering.bind_ok.1 h
  have hs := Lowering.expr_scope hv
  split at h
  · rename_i hb
    obtain ⟨rfl, rfl⟩ := Lowering.pure_ok.1 h
    exact .discard hb hv
  · rename_i hb
    have hb : x.isBlank = false := by simpa using hb
    obtain ⟨s, r', hr, h⟩ := Lowering.bind_ok.1 h
    obtain ⟨rfl, rfl⟩ := Lowering.scope_ok.1 hr
    split at h
    · rename_i hd
      obtain ⟨rfl, rfl⟩ := Lowering.pure_ok.1 h
      exact .rebind hb (hs ▸ hd) hv
    · rename_i hd
      have hd : p.scope.isDeclared x.name = false := by simpa [hs] using hd
      obtain ⟨u, r', hu, h⟩ := Lowering.bind_ok.1 h
      obtain ⟨-, rfl⟩ := (Lowering.declare_ok_of_not_blank hb).1 hu
      obtain ⟨rfl, rfl⟩ := Lowering.pure_ok.1 h
      exact .bind hb hd hv

theorem lowerBindings_cons_ok {x : Ident} {rhs : Expr} {pairs : List (Ident × Expr)}
    {fs : List Fragment} :
    (lowerBindings src ((x, rhs) :: pairs)).runFrom p = (.ok fs, q) ↔
      ∃ f r gs, (lowerBinding src x rhs).runFrom p = (.ok f, r) ∧
        (lowerBindings src pairs).runFrom r = (.ok gs, q) ∧ fs = f :: gs := by
  rw [lowerBindings]
  exact Lowering.both_ok

/-- What one name of a specification did. -/
inductive NameRun (src : Source) (p q : Progress) (kind : DeclKind) (type : Option Primitive)
    (x : Ident) : Option Expr → List Fragment → Prop
  | skip (hb : x.isBlank = true) (hq : q = p) : NameRun src p q kind type x none []
  | discard {v : Expr} {value : Target.Expr} (hb : x.isBlank = true)
      (hv : (Lowering.expr src v).runFrom p = (.ok value, q)) :
      NameRun src p q kind type x (some v) [.discard value]
  | declare {v : Option Expr} {value : Option Target.Expr} (hb : x.isBlank = false)
      (hd : p.scope.isDeclaredHere x.name = false)
      (hv : (v.mapM (Lowering.expr src)).runFrom (p.declaring x.name) = (.ok value, q)) :
      NameRun src p q kind type x v [.declare (kind = .const) type x.name value]

theorem lowerName_ok {kind : DeclKind} {type : Option Primitive} {x : Ident} {v : Option Expr}
    {fs : List Fragment} (h : (lowerName src kind type x v).runFrom p = (.ok fs, q)) :
    NameRun src p q kind type x v fs := by
  unfold lowerName at h
  split at h
  · rename_i hb
    cases v with
    | none =>
      obtain ⟨rfl, rfl⟩ := Lowering.pure_ok.1 h
      exact .skip hb rfl
    | some v =>
      obtain ⟨value, r, hv, h⟩ := Lowering.bind_ok.1 h
      obtain ⟨rfl, rfl⟩ := Lowering.pure_ok.1 h
      exact .discard hb hv
  · rename_i hb
    have hb : x.isBlank = false := by simpa using hb
    obtain ⟨u, r, hu, h⟩ := Lowering.bind_ok.1 h
    obtain ⟨hd, rfl⟩ := (Lowering.declare_ok_of_not_blank hb).1 hu
    obtain ⟨value, r, hv, h⟩ := Lowering.bind_ok.1 h
    obtain ⟨rfl, rfl⟩ := Lowering.pure_ok.1 h
    exact .declare hb hd hv

theorem lowerNames_cons_ok {kind : DeclKind} {type : Option Primitive} {x : Ident}
    {names : List Ident} {values : List Expr} {fs : List Fragment} :
    (lowerNames src kind type (x :: names) values).runFrom p = (.ok fs, q) ↔
      ∃ gs r hs, (lowerName src kind type x values.head?).runFrom p = (.ok gs, r) ∧
        (lowerNames src kind type names values.tail).runFrom r = (.ok hs, q) ∧
        fs = gs ++ hs := by
  rw [lowerNames]
  exact Lowering.both_ok

/-- The type of a specification is looked up if it is there; no progress is made by it. -/
theorem ValueSpec.lower_ok {kind : DeclKind} {spec : ValueSpec} {fs : List Fragment} :
    (spec.lower src kind).runFrom p = (.ok fs, q) ↔
      ∃ type, spec.type.mapM (TypeExpr.lower src) = .ok type ∧
        (spec.values = [] ∨ spec.values.length = spec.names.length) ∧
        (lowerNames src kind type spec.names spec.values).runFrom p = (.ok fs, q) := by
  have hc : (!spec.values.isEmpty && spec.values.length != spec.names.length) = true ↔
      ¬ (spec.values = [] ∨ spec.values.length = spec.names.length) := by
    simp
  unfold ValueSpec.lower
  rw [Lowering.bind_ok]
  constructor
  · intro h
    obtain ⟨type, r, h, hr⟩ := h
    obtain ⟨hty, rfl⟩ := Lowering.mapM_lift_ok.1 h
    split at hr
    · exact absurd hr Lowering.reject_ok
    · rename_i hn
      exact ⟨type, hty, Classical.not_not.1 (mt hc.2 hn), hr⟩
  · intro h
    obtain ⟨type, hty, hl, hr⟩ := h
    refine ⟨type, p, Lowering.mapM_lift_ok.2 ⟨hty, rfl⟩, ?_⟩
    rw [if_neg (fun h => hc.1 h hl)]
    exact hr

theorem lowerSpecs_cons_ok {kind : DeclKind} {spec : ValueSpec} {specs : List ValueSpec}
    {fs : List Fragment} :
    (lowerSpecs src kind (spec :: specs)).runFrom p = (.ok fs, q) ↔
      ∃ gs r hs, (spec.lower src kind).runFrom p = (.ok gs, r) ∧
        (lowerSpecs src kind specs).runFrom r = (.ok hs, q) ∧ fs = gs ++ hs := by
  rw [lowerSpecs]
  exact Lowering.both_ok

/-- What a simple statement did, by its form. -/
inductive SimpleRun (src : Source) (p q : Progress) : Stmt → List Fragment → Prop
  | define {lhs rhs : List Expr} {span : Span} {names : List Ident} {fs : List Fragment}
      (hl : lhs.length = rhs.length) (hn : lhs.mapM Expr.name? = some names)
      (hr : repeatedName? p.scope names = none)
      (h : (lowerBindings src (names.zip rhs)).runFrom p = (.ok fs, q)) :
      SimpleRun src p q (.assign lhs .define rhs span) fs
  | assign {lhs rhs : List Expr} {op : Operator} {span : Span} {fs : List Fragment}
      (hl : lhs.length = rhs.length) (ho : op.isAssignment = true) (hd : op ≠ .define)
      (h : (lowerAssign src op (lhs.zip rhs)).runFrom p = (.ok fs, q)) :
      SimpleRun src p q (.assign lhs op rhs span) fs
  | decl {kind : DeclKind} {specs : List ValueSpec} {span : Span} {fs : List Fragment}
      (h : (lowerSpecs src kind specs).runFrom p = (.ok fs, q)) :
      SimpleRun src p q (.decl kind specs span) fs
  | step {operand : Expr} {op : Operator} {span : Span} {x : Target.Expr}
      (h : (Lowering.expr src operand).runFrom p = (.ok x, q)) :
      SimpleRun src p q (.step operand op span) [.step x op]

/-- A `:=` repeats no name if it has none, or brings a new one. -/
theorem repeatedName?_eq_none_iff {s : Scope} {names : List Ident} :
    repeatedName? s names = none ↔
      names = [] ∨ ∃ x ∈ names, x.isBlank = false ∧ s.isDeclaredHere x.name = false := by
  unfold repeatedName?
  split
  · rename_i h
    simp only [List.any_eq_true, Bool.and_eq_true, Bool.not_eq_true'] at h
    simp [h]
  · rename_i h
    simp only [List.any_eq_true, Bool.and_eq_true, Bool.not_eq_true'] at h
    cases names with
    | nil => simp
    | cons x xs =>
      refine ⟨fun e => ?_, fun k => absurd (k.resolve_left (List.cons_ne_nil x xs)) h⟩
      cases hf : (x :: xs).find? (fun x => !x.isBlank) <;> simp [hf] at e

namespace Expr

/-- All sides are names just if they can be read as names. -/
theorem names_iff {es : List Expr} :
    (∃ names, es.mapM Expr.name? = some names) ↔ ∀ e ∈ es, ∃ x, e = .name x := by
  induction es with
  | nil => simp
  | cons e es ih =>
    rw [List.forall_mem_cons, ← ih]
    simp only [List.mapM_cons, Option.bind_eq_bind, Option.bind_eq_some_iff]
    constructor
    · intro h
      obtain ⟨names, x, hx, xs, hxs, -⟩ := h
      refine ⟨⟨x, ?_⟩, xs, hxs⟩
      cases e <;> cases hx
      rfl
    · intro h
      obtain ⟨⟨x, hx⟩, xs, hxs⟩ := h
      subst hx
      exact ⟨x :: xs, x, rfl, xs, hxs, rfl⟩

theorem names_eq {es : List Expr} {names : List Ident}
    (h : es.mapM Expr.name? = some names) : names = es.filterMap Expr.name? := by
  induction es generalizing names with
  | nil =>
    cases h
    rfl
  | cons e es ih =>
    simp only [List.mapM_cons, Option.bind_eq_bind, Option.bind_eq_some_iff] at h
    obtain ⟨x, hx, xs, hxs, h⟩ := h
    cases h
    rw [List.filterMap_cons, hx, ih hxs]

/-- There are as many names as expressions that are names. -/
theorem names_length {es : List Expr} {names : List Ident}
    (h : es.mapM Expr.name? = some names) : names.length = es.length := by
  induction es generalizing names with
  | nil =>
    cases h
    rfl
  | cons e es ih =>
    simp only [List.mapM_cons, Option.bind_eq_bind, Option.bind_eq_some_iff] at h
    obtain ⟨x, -, xs, hx, h⟩ := h
    cases h
    rw [List.length_cons, List.length_cons, ih hx]

end Expr

theorem lowerDefine_ok {lhs rhs : List Expr} {span : Span} {fs : List Fragment} :
    (lowerDefine src lhs rhs span).runFrom p = (.ok fs, q) ↔
      ∃ names, lhs.mapM Expr.name? = some names ∧ repeatedName? p.scope names = none ∧
        (lowerBindings src (names.zip rhs)).runFrom p = (.ok fs, q) := by
  unfold lowerDefine
  cases hn : lhs.mapM Expr.name? with
  | none => simp [Lowering.reject_ok]
  | some names =>
    simp only [Option.some.injEq, exists_eq_left']
    rw [Lowering.bind_ok]
    constructor
    · intro h
      obtain ⟨s, r, hs, h⟩ := h
      obtain ⟨rfl, rfl⟩ := Lowering.scope_ok.1 hs
      cases hr : repeatedName? r.scope names with
      | none => exact ⟨rfl, by simpa only [hr] using h⟩
      | some x =>
        simp only [hr] at h
        exact absurd h Lowering.throw_ok
    · intro h
      obtain ⟨hr, h⟩ := h
      exact ⟨p.scope, p, Lowering.scope_ok.2 ⟨rfl, rfl⟩, by simpa only [hr] using h⟩

theorem Stmt.lowerSimple_ok {s : Stmt} {fs : List Fragment}
    (h : (s.lowerSimple src).runFrom p = (.ok fs, q)) : SimpleRun src p q s fs := by
  cases s with
  | assign lhs op rhs span =>
    rw [Stmt.lowerSimple] at h
    split at h
    · exact absurd h Lowering.reject_ok
    · rename_i hc
      simp only [Bool.or_eq_true, bne_iff_ne, ne_eq, Bool.not_eq_true', not_or,
        Classical.not_not, Bool.not_eq_false] at hc
      split at h
      · rename_i hd
        subst hd
        obtain ⟨names, hn, hr, h⟩ := lowerDefine_ok.1 h
        exact .define hc.1 hn hr h
      · rename_i hd
        exact .assign hc.1 hc.2 hd h
  | decl kind specs span => exact .decl h
  | step operand op span =>
    rw [Stmt.lowerSimple] at h
    obtain ⟨x, r, hx, h⟩ := Lowering.bind_ok.1 h
    obtain ⟨rfl, rfl⟩ := Lowering.pure_ok.1 h
    exact .step hx
  | ret | cond | loop | block | unsupported => exact absurd h Lowering.reject_ok

/-! ## Statements and blocks -/

namespace Stmt

theorem lower_ret_ok {results : List Expr} {span : Span} {t : Target.Stmt} :
    ((Stmt.ret results span).lower src).runFrom p = (.ok t, q) ↔
      (results = [] ∧ t = .ret none ∧ q = p) ∨
        ∃ v x, results = [v] ∧ (Lowering.expr src v).runFrom p = (.ok x, q) ∧
          t = .ret (some x) := by
  rcases results with _ | ⟨v, _ | ⟨w, rest⟩⟩
  · simp [Stmt.lower, Lowering.pure_ok]
  · simp only [Stmt.lower, Lowering.bind_ok, Lowering.pure_ok]
    constructor
    · intro h
      obtain ⟨x, r, h, rfl, rfl⟩ := h
      exact .inr ⟨v, x, rfl, h, rfl⟩
    · rintro (⟨⟨⟩, -⟩ | ⟨_, x, ⟨⟩, h, rfl⟩)
      exact ⟨x, q, h, rfl, rfl⟩
  · simp [Stmt.lower, Lowering.reject_ok]

theorem lower_simple_ok {s : Stmt} (hs : s.isSimple = true) {t : Target.Stmt} :
    (s.lower src).runFrom p = (.ok t, q) ↔
      ∃ fs, (s.lowerSimple src).runFrom p = (.ok fs, q) ∧ t = .simple fs := by
  rw [Stmt.lower_of_isSimple hs, Lowering.map_ok]

theorem lower_cond_ok {init : Option Stmt} {test : Expr} {body : Block} {other : Option Stmt}
    {span : Span} {t : Target.Stmt} :
    ((Stmt.cond init test body other span).lower src).runFrom p = (.ok t, q) ↔
      ∃ init' p₁ test' p₂ body' p₃ other' p₄,
        (init.mapM (Stmt.lowerSimple src)).runFrom p.inner = (.ok init', p₁) ∧
        (Lowering.expr src test).runFrom p₁ = (.ok test', p₂) ∧
        (body.lower src).runFrom p₂ = (.ok body', p₃) ∧
        (Stmt.lowerOther src other).runFrom p₃ = (.ok other', p₄) ∧
        t = .cond init' test' body' other' ∧ q = { p₄ with scope := p.scope } := by
  rw [Stmt.lower]
  exact Lowering.inChild_parts_ok

theorem lower_loop_ok {init : Option Stmt} {test : Option Expr} {post : Option Stmt}
    {body : Block} {span : Span} {t : Target.Stmt} :
    ((Stmt.loop init test post body span).lower src).runFrom p = (.ok t, q) ↔
      ∃ init' p₁ test' p₂ post' p₃ body' p₄,
        (init.mapM (Stmt.lowerSimple src)).runFrom p.inner = (.ok init', p₁) ∧
        (test.mapM (Lowering.expr src)).runFrom p₁ = (.ok test', p₂) ∧
        (post.mapM (Stmt.lowerSimple src)).runFrom p₂ = (.ok post', p₃) ∧
        (body.lower src).runFrom p₃ = (.ok body', p₄) ∧
        t = .loop (init'.getD []) test' (post'.getD []) body' ∧
        q = { p₄ with scope := p.scope } := by
  rw [Stmt.lower]
  exact Lowering.inChild_parts_ok

theorem lower_block_ok {body : Block} {t : Target.Stmt} :
    ((Stmt.block body).lower src).runFrom p = (.ok t, q) ↔
      ∃ body', (body.lower src).runFrom p = (.ok body', q) ∧ t = .block body' := by
  rw [Stmt.lower]
  exact Lowering.bind_pure_ok

theorem lower_unsupported_ok {span : Span} {t : Target.Stmt} :
    ¬ ((Stmt.unsupported span).lower src).runFrom p = (.ok t, q) := by
  rw [Stmt.lower]
  exact Lowering.reject_ok

theorem lowerOther_none_ok {b : Target.Branch} :
    (Stmt.lowerOther src none).runFrom p = (.ok b, q) ↔ b = .none ∧ q = p := by
  rw [Stmt.lowerOther, Lowering.pure_ok]

theorem lowerOther_block_ok {body : Block} {b : Target.Branch} :
    (Stmt.lowerOther src (some (.block body))).runFrom p = (.ok b, q) ↔
      ∃ body', (body.lower src).runFrom p = (.ok body', q) ∧ b = .block body' := by
  rw [Stmt.lowerOther]
  exact Lowering.bind_pure_ok

/-- Without an initializer, the conditional after `else` shares the header that is open. -/
theorem lowerOther_chain_ok {test : Expr} {body : Block} {other : Option Stmt} {span : Span}
    {b : Target.Branch} :
    (Stmt.lowerOther src (some (.cond none test body other span))).runFrom p = (.ok b, q) ↔
      ∃ test' p₁ body' p₂ other',
        (Lowering.expr src test).runFrom p = (.ok test', p₁) ∧
        (body.lower src).runFrom p₁ = (.ok body', p₂) ∧
        (Stmt.lowerOther src other).runFrom p₂ = (.ok other', q) ∧
        b = .chain test' body' other' := by
  simp only [Stmt.lowerOther, Lowering.bind_ok, Lowering.pure_ok]
  constructor
  · intro h
    obtain ⟨test', p₁, ht, body', p₂, hb, other', p₃, ho, rfl, rfl⟩ := h
    exact ⟨test', p₁, body', p₂, other', ht, hb, ho, rfl⟩
  · intro h
    obtain ⟨test', p₁, body', p₂, other', ht, hb, ho, rfl⟩ := h
    exact ⟨test', p₁, ht, body', p₂, hb, other', q, ho, rfl, rfl⟩

/-- With an initializer, it opens a header of its own. -/
theorem lowerOther_wrapped_ok {init : Stmt} {test : Expr} {body : Block} {other : Option Stmt}
    {span : Span} {b : Target.Branch} :
    (Stmt.lowerOther src (some (.cond (some init) test body other span))).runFrom p = (.ok b, q) ↔
      ∃ init' p₁ test' p₂ body' p₃ other' p₄,
        (init.lowerSimple src).runFrom p.inner = (.ok init', p₁) ∧
        (Lowering.expr src test).runFrom p₁ = (.ok test', p₂) ∧
        (body.lower src).runFrom p₂ = (.ok body', p₃) ∧
        (Stmt.lowerOther src other).runFrom p₃ = (.ok other', p₄) ∧
        b = .wrapped init' test' body' other' ∧ q = { p₄ with scope := p.scope } := by
  rw [Stmt.lowerOther]
  exact Lowering.inChild_parts_ok

theorem lowerList_nil_ok {ts : List Target.Stmt} :
    (Stmt.lowerList src []).runFrom p = (.ok ts, q) ↔ ts = [] ∧ q = p := by
  rw [Stmt.lowerList, Lowering.pure_ok]

theorem lowerList_cons_ok {s : Stmt} {ss : List Stmt} {ts : List Target.Stmt} :
    (Stmt.lowerList src (s :: ss)).runFrom p = (.ok ts, q) ↔
      ∃ t r us, (s.lower src).runFrom p = (.ok t, r) ∧
        (Stmt.lowerList src ss).runFrom r = (.ok us, q) ∧ ts = t :: us := by
  rw [Stmt.lowerList]
  exact Lowering.both_ok

end Stmt

theorem Block.lower_ok {ss : List Stmt} {span : Span} {ts : List Target.Stmt} :
    ((Block.mk ss span).lower src).runFrom p = (.ok ts, q) ↔
      ∃ r, (Stmt.lowerList src ss).runFrom p.inner = (.ok ts, r) ∧
        q = { r with scope := p.scope } := by
  rw [Block.lower, Lowering.inChild_ok]

theorem Block.lower_scope {b : Block} {ts : List Target.Stmt}
    (h : (b.lower src).runFrom p = (.ok ts, q)) : q.scope = p.scope := by
  obtain ⟨ss, span⟩ := b
  obtain ⟨r, -, rfl⟩ := Block.lower_ok.1 h
  rfl

/-- The branches of a conditional leave the scope of its header as it is. -/
theorem Stmt.lowerOther_scope : ∀ (other : Option Stmt) {p q : Progress} {b : Target.Branch},
    (Stmt.lowerOther src other).runFrom p = (.ok b, q) → q.scope = p.scope
  | none, p, q, b, h => by rw [(Stmt.lowerOther_none_ok.1 h).2]
  | some (.block body), p, q, b, h => by
    obtain ⟨body', hb, -⟩ := Stmt.lowerOther_block_ok.1 h
    exact Block.lower_scope hb
  | some (.cond none test body other span), p, q, b, h => by
    obtain ⟨test', p₁, body', p₂, other', ht, hb, ho, -⟩ := Stmt.lowerOther_chain_ok.1 h
    rw [Stmt.lowerOther_scope other ho, Block.lower_scope hb, Lowering.expr_scope ht]
  | some (.cond (some init) test body other span), p, q, b, h => by
    obtain ⟨init', p₁, test', p₂, body', p₃, other', p₄, -, -, -, -, -, rfl⟩ :=
      Stmt.lowerOther_wrapped_ok.1 h
    rfl
  | some (.ret ..), p, q, b, h | some (.assign ..), p, q, b, h | some (.decl ..), p, q, b, h
  | some (.step ..), p, q, b, h | some (.loop ..), p, q, b, h
  | some (.unsupported _), p, q, b, h => absurd h Lowering.reject_ok

/-! ## Functions -/

theorem lowerParamNames_cons_ok {type : Primitive} {x : Ident} {names : List Ident}
    {params : List (Primitive × String)} :
    (lowerParamNames type (x :: names)).runFrom p = (.ok params, q) ↔
      ∃ s rest, p.scope.declare? x = some s ∧
        (lowerParamNames type names).runFrom { p with scope := s } = (.ok rest, q) ∧
        params = (type, x.name) :: rest := by
  simp only [lowerParamNames, Lowering.bind_ok, Lowering.declare_ok, Lowering.pure_ok]
  constructor
  · intro h
    obtain ⟨u, r, ⟨s, hs, rfl⟩, rest, r', h, rfl, rfl⟩ := h
    exact ⟨s, rest, hs, h, rfl⟩
  · intro h
    obtain ⟨s, rest, hs, h, rfl⟩ := h
    exact ⟨(), _, ⟨s, hs, rfl⟩, rest, q, h, rfl, rfl⟩

theorem Field.lowerParam_ok {field : Field} {params : List (Primitive × String)} :
    (field.lowerParam src).runFrom p = (.ok params, q) ↔
      ∃ type, field.type.lower src = .ok type ∧ field.names ≠ [] ∧
        (lowerParamNames type field.names).runFrom p = (.ok params, q) := by
  unfold Field.lowerParam
  simp only [Lowering.bind_ok, Lowering.lift_ok]
  constructor
  · intro h
    obtain ⟨type, r, ⟨hty, rfl⟩, h⟩ := h
    split at h
    · exact absurd h Lowering.reject_ok
    · rename_i hn
      exact ⟨type, hty, by simpa using hn, h⟩
  · intro h
    obtain ⟨type, hty, hn, h⟩ := h
    refine ⟨type, p, ⟨hty, rfl⟩, ?_⟩
    rw [if_neg (by simpa using hn)]
    exact h

theorem lowerParams_cons_ok {field : Field} {fields : List Field}
    {params : List (Primitive × String)} :
    (lowerParams src (field :: fields)).runFrom p = (.ok params, q) ↔
      ∃ ps r qs, (field.lowerParam src).runFrom p = (.ok ps, r) ∧
        (lowerParams src fields).runFrom r = (.ok qs, q) ∧ params = ps ++ qs := by
  rw [lowerParams]
  exact Lowering.both_ok

theorem Func.lowerParts_ok {f : Func} {t : Target.Func} :
    (f.lowerParts src).runFrom p = (.ok t, q) ↔
      ∃ result params r body, f.results.elim (.ok none) (FieldList.lowerResult src) = .ok result ∧
        (lowerParams src f.params.fields).runFrom p = (.ok params, r) ∧
        (f.body.elim (pure []) (Block.lower src)).runFrom r = (.ok body, q) ∧
        t = ⟨result, f.name.name, params, body⟩ := by
  unfold Func.lowerParts
  simp only [Lowering.bind_ok, Lowering.lift_ok, Lowering.pure_ok]
  constructor
  · intro h
    obtain ⟨result, _, ⟨hr, rfl⟩, params, r, hp, body, q', hb, rfl, rfl⟩ := h
    exact ⟨result, params, r, body, hr, hp, hb, rfl⟩
  · intro h
    obtain ⟨result, params, r, body, hr, hp, hb, rfl⟩ := h
    exact ⟨result, p, ⟨hr, rfl⟩, params, r, hp, body, q, hb, rfl, rfl⟩

theorem Func.lower_ok {policy : ScopePolicy} {f : Func} {l : Func.Lowered} :
    f.lower src policy = .ok l ↔
      ∃ q, (f.lowerParts src).runFrom ⟨.root policy, []⟩ = (.ok l.func, q) ∧ l.lost = q.lost := by
  unfold Func.lower
  obtain ⟨func, lost⟩ := l
  rcases (f.lowerParts src).runFrom ⟨.root policy, []⟩ with ⟨_ | t, q⟩
  · simp
  · simp only [Except.ok.injEq, Func.Lowered.mk.injEq, Prod.mk.injEq]
    constructor
    · intro h
      obtain ⟨rfl, rfl⟩ := h
      exact ⟨q, ⟨rfl, rfl⟩, rfl⟩
    · intro h
      obtain ⟨_, ⟨rfl, rfl⟩, rfl⟩ := h
      exact ⟨rfl, rfl⟩

end Recast
