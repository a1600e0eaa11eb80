import Recast.Grammar.Expr
import Recast.Proofs.Hulls

/-!
# Types and expressions from trees

What the readers of types and expressions find, as a judgement that knows nothing of reading: the
trees that a type or an expression is made of (`TypeExpr.MadeOf`, `Expr.MadeOf`). The span of what
is made is the hull of its trees, and a binary operator has operands that bind more tightly than it
does, the left one at least as tightly. The readers come to no other expressions
(`Expr.read_made`), however far they read ahead; in particular an operator that goes on with a
chain finds its place in the tree without disturbing any of this (`Expr.MadeOf.extend`).
-/

namespace Recast

open Forest (hull Along)

/-! ## The judgements -/

/-- A plain name, or trees of which only the place is kept. -/
inductive TypeExpr.MadeOf : TypeExpr → Forest → Prop
  | named {w : String} {gap : Gap} {span : Span} :
      MadeOf (.named ⟨w, span⟩) [.leaf ⟨.word w, gap, span⟩]
  | unsupported {us : Forest} (hu : us ≠ []) : MadeOf (.unsupported (hull us)) us

namespace Operator

/-- The strength with which an operator holds its operands, zero if it has none. -/
def strength (op : Operator) : Nat := op.precedence?.getD 0

/-- A binary operator is one mark, or two marks that touch. -/
inductive MadeOf : Operator → Forest → Prop
  | mark {op : Operator} {gap : Gap} {span : Span} (hp : op.precedence?.isSome = true) :
      MadeOf op [.leaf ⟨.mark (.operator op), gap, span⟩]
  | andNot {gap : Gap} {s t : Span} :
      MadeOf .andNot
        [.leaf ⟨.mark (.operator .and), gap, s⟩, .leaf ⟨.mark (.operator .xor), .none, t⟩]
  | logicalAnd {gap : Gap} {s t : Span} :
      MadeOf .logicalAnd
        [.leaf ⟨.mark (.operator .and), gap, s⟩, .leaf ⟨.mark (.operator .and), .none, t⟩]

end Operator

namespace Expr

/-- The operator of a binary expression. -/
def top? : Expr → Option Operator
  | .binary op _ _ _ => some op
  | _ => none

/-- The trees that an expression is made of. The type arguments of a call stand between the
callee and the arguments, and are not kept. -/
inductive MadeOf : Expr → Forest → Prop
  | literal {kind : LiteralKind} {text : String} {gap : Gap} {span : Span} :
      MadeOf (.literal text span) [.leaf ⟨.literal kind text, gap, span⟩]
  | name {w : String} {gap : Gap} {span : Span} (hw : isTypeWord w = false) :
      MadeOf (.name ⟨w, span⟩) [.leaf ⟨.word w, gap, span⟩]
  | binary {op : Operator} {l r : Expr} {ls os rs : Forest} (hl : MadeOf l ls)
      (ho : op.MadeOf os) (hr : MadeOf r rs)
      (hleft : ∀ o, l.top? = some o → op.strength ≤ o.strength)
      (hright : ∀ o, r.top? = some o → op.strength < o.strength) :
      MadeOf (.binary op l r (hull (ls ++ os ++ rs))) (ls ++ os ++ rs)
  | unary {op : Operator} {e : Expr} {gap : Gap} {span : Span} {us : Forest}
      (ho : op.isPrefix = true) (he : MadeOf e us) (ht : e.top? = none) :
      MadeOf (.unary op e (hull (.leaf ⟨.mark (.operator op), gap, span⟩ :: us)))
        (.leaf ⟨.mark (.operator op), gap, span⟩ :: us)
  | receive {e : Expr} {less dash : Tree} {us : Forest} (he : MadeOf e us) (ht : e.top? = none) :
      MadeOf (.unary .arrow e (hull (less :: dash :: us))) (less :: dash :: us)
  | paren {e : Expr} {gap closing : Gap} {inner : Forest} {span : Span} (he : MadeOf e inner) :
      MadeOf (.paren e span) [.group .paren gap inner closing span]
  | selector {e : Expr} {w : String} {dot : Tree} {gap : Gap} {span : Span} {us : Forest}
      (he : MadeOf e us) :
      MadeOf (.selector e ⟨w, span⟩ (hull (us ++ [dot, .leaf ⟨.word w, gap, span⟩])))
        (us ++ [dot, .leaf ⟨.word w, gap, span⟩])
  | call {callee : Expr} {args : List Expr} {us skipped inner : Forest} {gap closing : Gap}
      {span : Span} (hf : MadeOf callee us) (ha : Along MadeOf args inner) :
      MadeOf (.call callee args (hull (us ++ skipped ++ [.group .paren gap inner closing span])))
        (us ++ skipped ++ [.group .paren gap inner closing span])
  | unsupported {us : Forest} (hu : us ≠ []) : MadeOf (.unsupported (hull us)) us

end Expr

/-! ## Hulls of what is made -/

namespace TypeExpr.MadeOf

variable {type : TypeExpr} {us : Forest}

theorem ne_nil (h : type.MadeOf us) : us ≠ [] := by
  cases h with
  | named => simp
  | unsupported hu => exact hu

theorem span_eq (h : type.MadeOf us) : type.span = hull us := by
  cases h <;> rfl

end TypeExpr.MadeOf

theorem Operator.MadeOf.ne_nil {op : Operator} {us : Forest} (h : op.MadeOf us) : us ≠ [] := by
  cases h <;> simp

namespace Expr.MadeOf

variable {e l r u : Expr} {us vs os ts : Forest} {op : Operator}

theorem ne_nil : ∀ {e : Expr} {us : Forest}, e.MadeOf us → us ≠ []
  | .binary _ l _ _, _, h => by
    cases h with
    | binary hl => simp [ne_nil hl]
  | .literal .., _, h | .name _, _, h | .unary .., _, h | .paren .., _, h | .selector .., _, h
  | .call .., _, h | .unsupported _, _, h => by
    cases h <;> simp_all

theorem span_eq (h : e.MadeOf us) : e.span = hull us := by
  cases h <;> rfl

/-- More trees after an expression, taken into it as a whole. -/
theorem unsupportedThrough (h : e.MadeOf us) (vs : Forest) (hv : vs ≠ []) :
    (Expr.unsupported (e.span.through (hull vs))).MadeOf (us ++ vs) := by
  rw [h.span_eq, ← Forest.hull_append h.ne_nil hv]
  exact .unsupported (by simp [h.ne_nil])

theorem selectorThrough {w : String} {dot : Tree} {gap : Gap} {span : Span} (h : e.MadeOf us) :
    (Expr.selector e ⟨w, span⟩ (e.span.through span)).MadeOf
      (us ++ [dot, .leaf ⟨.word w, gap, span⟩]) := by
  have hs : e.span.through span = hull (us ++ [dot, .leaf ⟨.word w, gap, span⟩]) := by
    rw [Forest.hull_append h.ne_nil (by simp), h.span_eq]
    rfl
  rw [hs]
  exact .selector h

theorem callThrough {args : List Expr} {skipped inner : Forest} {gap closing : Gap} {span : Span}
    (h : e.MadeOf us) (ha : Along Expr.MadeOf args inner) :
    (Expr.call e args (e.span.through span)).MadeOf
      (us ++ skipped ++ [.group .paren gap inner closing span]) := by
  have hs : e.span.through span
      = hull (us ++ skipped ++ [.group .paren gap inner closing span]) := by
    rw [Forest.hull_append (by simp [h.ne_nil]) (by simp), Forest.hull_singleton, h.span_eq]
    cases us with
    | nil => exact absurd rfl h.ne_nil
    | cons t us => rfl
  rw [hs]
  exact .call h ha

theorem unaryThrough {gap : Gap} {span : Span} (h : e.MadeOf us) (ho : op.isPrefix = true)
    (ht : e.top? = none) :
    (Expr.unary op e (span.through e.span)).MadeOf
      (.leaf ⟨.mark (.operator op), gap, span⟩ :: us) := by
  have hs : span.through e.span = hull (.leaf ⟨.mark (.operator op), gap, span⟩ :: us) := by
    rw [Forest.hull_cons h.ne_nil, h.span_eq]
    rfl
  rw [hs]
  exact .unary ho h ht

theorem receiveThrough {less dash : Tree} (h : e.MadeOf us) (ht : e.top? = none) :
    (Expr.unary .arrow e (less.span.through e.span)).MadeOf (less :: dash :: us) := by
  have hs : less.span.through e.span = hull (less :: dash :: us) := by
    rw [Forest.hull_cons (by simp), Forest.hull_cons h.ne_nil, h.span_eq]
    rfl
  rw [hs]
  exact .receive h ht

theorem binaryThrough (hl : l.MadeOf us) (ho : op.MadeOf os) (hr : r.MadeOf vs)
    (hleft : ∀ o, l.top? = some o → op.strength ≤ o.strength)
    (hright : ∀ o, r.top? = some o → op.strength < o.strength) :
    (Expr.binary op l r (l.span.through r.span)).MadeOf (us ++ os ++ vs) := by
  have hs : l.span.through r.span = hull (us ++ os ++ vs) := by
    rw [Forest.hull_append (by simp [hl.ne_nil]) hr.ne_nil, Forest.hull_append hl.ne_nil ho.ne_nil,
      hl.span_eq, hr.span_eq]
    rfl
  rw [hs]
  exact .binary hl ho hr hleft hright

end Expr.MadeOf

/-! ## Chains -/

namespace Expr

/-- The operator of a chain that goes on is the new one or that of the chain before. -/
theorem top?_extend {e u : Expr} {op o : Operator} (h : (e.extend op u).top? = some o) :
    o = op ∨ e.top? = some o := by
  unfold extend at h
  split at h
  · split at h
    · exact .inr h
    · exact .inl (Option.some.inj h).symm
  · exact .inl (Option.some.inj h).symm

theorem extend_of_top?_eq_none {e u : Expr} {op : Operator} (h : e.top? = none) :
    e.extend op u = .binary op e u (e.span.through u.span) := by
  unfold extend
  split
  · cases h
  · rfl

/-- The next operator and operand of a chain go to their place in the tree. Only the right operand
of a binary expression is gone into. -/
theorem MadeOf.extend {op : Operator} {u : Expr} {os vs : Forest} (ho : op.MadeOf os)
    (hu : u.MadeOf vs) (ht : u.top? = none) :
    ∀ {e : Expr} {us : Forest}, e.MadeOf us → (e.extend op u).MadeOf (us ++ os ++ vs)
  | .binary op' l r span, _, h => by
    have hright : ∀ o, u.top? = some o → op.strength < o.strength := by simp [ht]
    cases h with
    | @binary _ _ _ ls os' rs hl ho' hr hleft' hright' =>
      rw [Expr.extend]
      split
      · rename_i hlt
        have ih := MadeOf.extend ho hu ht hr
        have hs : (hull (ls ++ os' ++ rs)).through u.span
            = l.span.through (r.extend op u).span := by
          rw [ih.span_eq, Forest.hull_append (by simp [hl.ne_nil]) hr.ne_nil,
            Forest.hull_append hl.ne_nil ho'.ne_nil, hl.span_eq, hu.span_eq,
            Forest.hull_append (by simp [hr.ne_nil]) hu.ne_nil]
          rfl
        have ha : ls ++ os' ++ rs ++ os ++ vs = ls ++ os' ++ (rs ++ os ++ vs) := by
          simp [List.append_assoc]
        rw [hs, ha]
        refine .binaryThrough hl ho' ih hleft' fun o h => ?_
        rcases top?_extend h with rfl | h
        · exact hlt
        · exact hright' o h
      · rename_i hlt
        refine .binaryThrough (.binary hl ho' hr hleft' hright') ho hu (fun o h => ?_) hright
        obtain rfl := Option.some.inj h
        exact Nat.le_of_not_lt hlt
  | .literal .., _, h | .name _, _, h | .unary .., _, h | .paren .., _, h | .selector .., _, h
  | .call .., _, h | .unsupported _, _, h => by
    rw [extend_of_top?_eq_none rfl]
    exact h.binaryThrough ho hu (by simp [top?]) (by simp [ht])

end Expr

end Recast
