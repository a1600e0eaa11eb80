import Recast.Text.Span
import Recast.Syntax.Operator

/-!
# Names, types and expressions

The expressions of a Go source that can be lowered. Every node keeps its span.
A form that has no counterpart in C++ is kept as `Expr.unsupported`, known by
its span alone, so that a message can still quote it.
-/

namespace Recast

/-- A name and the place where it is written. -/
structure Ident where
  name : String
  span : Span
  deriving Repr, DecidableEq, Inhabited

namespace Ident

/-- The blank name `_`, which binds nothing. -/
def isBlank (x : Ident) : Bool := x.name == "_"

end Ident

/-- A type as it is written: a plain name, or a shape known by its span alone. -/
inductive TypeExpr where
  | named (name : Ident)
  | unsupported (span : Span)
  deriving Repr, DecidableEq, Inhabited

namespace TypeExpr

def span : TypeExpr → Span
  | .named x => x.span
  | .unsupported s => s

end TypeExpr

/-- An expression. Literals are kept as they are written. -/
inductive Expr where
  | literal (text : String) (span : Span)
  | name (name : Ident)
  | binary (op : Operator) (lhs rhs : Expr) (span : Span)
  | unary (op : Operator) (operand : Expr) (span : Span)
  | paren (inner : Expr) (span : Span)
  | call (callee : Expr) (args : List Expr) (span : Span)
  | selector (operand : Expr) (field : Ident) (span : Span)
  | unsupported (span : Span)
  deriving Repr, Inhabited

namespace Expr

def span : Expr → Span
  | .literal _ s | .binary _ _ _ s | .unary _ _ s | .paren _ s
  | .call _ _ s | .selector _ _ s | .unsupported s => s
  | .name x => x.span

/-- The package and the member of `package.member`. -/
def qualified? : Expr → Option (String × String)
  | .selector (.name pkg) field _ => some (pkg.name, field.name)
  | _ => none

/-- The name of an expression that is nothing but a name. -/
def name? : Expr → Option Ident
  | .name x => some x
  | _ => none

end Expr

/-! ## Decidable equality -/

mutual

/-- Equality of expressions, spans included. -/
def Expr.same : Expr → Expr → Bool
  | .literal t s, .literal t' s' => t == t' && s == s'
  | .name x, .name x' => x == x'
  | .binary o l r s, .binary o' l' r' s' => o == o' && s == s' && l.same l' && r.same r'
  | .unary o x s, .unary o' x' s' => o == o' && s == s' && x.same x'
  | .paren x s, .paren x' s' => s == s' && x.same x'
  | .call c as s, .call c' as' s' => s == s' && c.same c' && Expr.sameList as as'
  | .selector x f s, .selector x' f' s' => f == f' && s == s' && x.same x'
  | .unsupported s, .unsupported s' => s == s'
  | _, _ => false

def Expr.sameList : List Expr → List Expr → Bool
  | [], [] => true
  | x :: xs, y :: ys => x.same y && Expr.sameList xs ys
  | _, _ => false

end

mutual

theorem Expr.same_refl : ∀ e : Expr, e.same e = true
  | .literal .. | .name _ | .unsupported _ => by simp [Expr.same]
  | .binary _ l r _ => by simp [Expr.same, Expr.same_refl l, Expr.same_refl r]
  | .unary _ x _ | .paren x _ | .selector x _ _ => by simp [Expr.same, Expr.same_refl x]
  | .call c as _ => by simp [Expr.same, Expr.same_refl c, Expr.sameList_refl as]

theorem Expr.sameList_refl : ∀ es : List Expr, Expr.sameList es es = true
  | [] => rfl
  | e :: es => by simp [Expr.sameList, Expr.same_refl e, Expr.sameList_refl es]

end

mutual

theorem Expr.eq_of_same : ∀ {a b : Expr}, a.same b = true → a = b
  | .literal .., b, h | .name _, b, h | .unsupported _, b, h => by
    cases b <;> simp_all [Expr.same]
  | .binary _ l r _, b, h => by
    cases b <;> simp only [Expr.same, Bool.and_eq_true, beq_iff_eq, Bool.false_eq_true] at h
    obtain ⟨⟨⟨rfl, rfl⟩, hl⟩, hr⟩ := h
    rw [Expr.eq_of_same hl, Expr.eq_of_same hr]
  | .unary _ x _, b, h => by
    cases b <;> simp only [Expr.same, Bool.and_eq_true, beq_iff_eq, Bool.false_eq_true] at h
    obtain ⟨⟨rfl, rfl⟩, hx⟩ := h
    rw [Expr.eq_of_same hx]
  | .paren x _, b, h => by
    cases b <;> simp only [Expr.same, Bool.and_eq_true, beq_iff_eq, Bool.false_eq_true] at h
    obtain ⟨rfl, hx⟩ := h
    rw [Expr.eq_of_same hx]
  | .call c as _, b, h => by
    cases b <;> simp only [Expr.same, Bool.and_eq_true, beq_iff_eq, Bool.false_eq_true] at h
    obtain ⟨⟨rfl, hc⟩, ha⟩ := h
    rw [Expr.eq_of_same hc, Expr.eq_of_sameList ha]
  | .selector x _ _, b, h => by
    cases b <;> simp only [Expr.same, Bool.and_eq_true, beq_iff_eq, Bool.false_eq_true] at h
    obtain ⟨⟨rfl, rfl⟩, hx⟩ := h
    rw [Expr.eq_of_same hx]

theorem Expr.eq_of_sameList : ∀ {as bs : List Expr}, Expr.sameList as bs = true → as = bs
  | [], bs, h => by cases bs <;> simp_all [Expr.sameList]
  | a :: as, bs, h => by
    cases bs with
    | nil => simp [Expr.sameList] at h
    | cons b bs =>
      simp only [Expr.sameList, Bool.and_eq_true] at h
      rw [Expr.eq_of_same h.1, Expr.eq_of_sameList h.2]

end

instance : DecidableEq Expr := fun a b =>
  if h : a.same b = true then .isTrue (Expr.eq_of_same h)
  else .isFalse fun e => h (e ▸ Expr.same_refl a)

end Recast
