import Recast.Syntax.Expr

/-!
# Statements and blocks

The statements of a function body. As with expressions, what has no
counterpart is `Stmt.unsupported`; empty statements do not appear.
-/

namespace Recast

/-- Whether a declaration introduces variables or constants. -/
inductive DeclKind where
  | var
  | const
  deriving Repr, DecidableEq, Inhabited

/-- One specification of a declaration: `a, b T = x, y`. -/
structure ValueSpec where
  names : List Ident
  type : Option TypeExpr
  values : List Expr
  span : Span
  deriving Repr, DecidableEq, Inhabited

mutual

/-- A statement. -/
inductive Stmt where
  | ret (results : List Expr) (span : Span)
  | assign (lhs : List Expr) (op : Operator) (rhs : List Expr) (span : Span)
  | decl (kind : DeclKind) (specs : List ValueSpec) (span : Span)
  | step (operand : Expr) (op : Operator) (span : Span)
  | cond (init : Option Stmt) (test : Expr) (body : Block) (other : Option Stmt) (span : Span)
  | loop (init : Option Stmt) (test : Option Expr) (post : Option Stmt) (body : Block)
      (span : Span)
  | block (body : Block)
  | unsupported (span : Span)

/-- A list of statements in braces. -/
inductive Block where
  | mk (stmts : List Stmt) (span : Span)

end

instance : Inhabited Stmt := ⟨.unsupported .none⟩
instance : Inhabited Block := ⟨.mk [] .none⟩

namespace Block

def stmts : Block → List Stmt
  | .mk ss _ => ss

def span : Block → Span
  | .mk _ s => s

end Block

namespace Stmt

def span : Stmt → Span
  | .ret _ s | .assign _ _ _ s | .decl _ _ s | .step _ _ s | .cond _ _ _ _ s
  | .loop _ _ _ _ s | .unsupported s => s
  | .block b => b.span

/-- The statements that may stand in a header. -/
def isSimple : Stmt → Bool
  | .assign .. | .decl .. | .step .. => true
  | _ => false

/-- The statements that may follow `else`. -/
def isBranch : Stmt → Bool
  | .block _ | .cond .. => true
  | _ => false

end Stmt

/-! ## Decidable equality -/

mutual

/-- Equality of statements, spans included. -/
def Stmt.same : Stmt → Stmt → Bool
  | .ret rs s, .ret rs' s' => rs == rs' && s == s'
  | .assign l o r s, .assign l' o' r' s' => l == l' && o == o' && r == r' && s == s'
  | .decl k ss s, .decl k' ss' s' => k == k' && ss == ss' && s == s'
  | .step x o s, .step x' o' s' => x == x' && o == o' && s == s'
  | .cond i t b e s, .cond i' t' b' e' s' =>
    t == t' && s == s' && Stmt.sameOption i i' && b.same b' && Stmt.sameOption e e'
  | .loop i t p b s, .loop i' t' p' b' s' =>
    t == t' && s == s' && Stmt.sameOption i i' && Stmt.sameOption p p' && b.same b'
  | .block b, .block b' => b.same b'
  | .unsupported s, .unsupported s' => s == s'
  | _, _ => false
termination_by structural a => a

def Stmt.sameOption : Option Stmt → Option Stmt → Bool
  | none, none => true
  | some a, some b => a.same b
  | _, _ => false
termination_by structural a => a

def Stmt.sameList : List Stmt → List Stmt → Bool
  | [], [] => true
  | a :: as, b :: bs => a.same b && Stmt.sameList as bs
  | _, _ => false
termination_by structural a => a

/-- Equality of blocks, spans included. -/
def Block.same : Block → Block → Bool
  | .mk ss s, .mk ss' s' => s == s' && Stmt.sameList ss ss'
termination_by structural a => a

end

mutual

theorem Stmt.same_refl : ∀ a : Stmt, a.same a = true
  | .ret .. | .assign .. | .decl .. | .step .. | .unsupported _ => by simp [Stmt.same]
  | .cond i _ b e _ => by
    simp [Stmt.same, Stmt.sameOption_refl i, Block.same_refl b, Stmt.sameOption_refl e]
  | .loop i _ p b _ => by
    simp [Stmt.same, Stmt.sameOption_refl i, Stmt.sameOption_refl p, Block.same_refl b]
  | .block b => by simp [Stmt.same, Block.same_refl b]

theorem Stmt.sameOption_refl : ∀ a : Option Stmt, Stmt.sameOption a a = true
  | none => by simp [Stmt.sameOption]
  | some a => by simp [Stmt.sameOption, Stmt.same_refl a]

theorem Stmt.sameList_refl : ∀ as : List Stmt, Stmt.sameList as as = true
  | [] => by simp [Stmt.sameList]
  | a :: as => by simp [Stmt.sameList, Stmt.same_refl a, Stmt.sameList_refl as]

theorem Block.same_refl : ∀ b : Block, b.same b = true
  | .mk ss _ => by simp [Block.same, Stmt.sameList_refl ss]

end

mutual

theorem Stmt.eq_of_same : ∀ {a b : Stmt}, a.same b = true → a = b
  | .ret .., b, h | .assign .., b, h | .decl .., b, h | .step .., b, h
  | .unsupported _, b, h => by
    cases b <;> simp_all [Stmt.same]
  | .cond i _ c e _, b, h => by
    cases b <;> simp only [Stmt.same, Bool.and_eq_true, beq_iff_eq, Bool.false_eq_true] at h
    obtain ⟨⟨⟨⟨rfl, rfl⟩, hi⟩, hb⟩, he⟩ := h
    rw [Stmt.eq_of_sameOption hi, Block.eq_of_same hb, Stmt.eq_of_sameOption he]
  | .loop i _ p c _, b, h => by
    cases b <;> simp only [Stmt.same, Bool.and_eq_true, beq_iff_eq, Bool.false_eq_true] at h
    obtain ⟨⟨⟨⟨rfl, rfl⟩, hi⟩, hp⟩, hb⟩ := h
    rw [Stmt.eq_of_sameOption hi, Stmt.eq_of_sameOption hp, Block.eq_of_same hb]
  | .block c, b, h => by
    cases b <;> simp only [Stmt.same, Bool.false_eq_true] at h
    rw [Block.eq_of_same h]

theorem Stmt.eq_of_sameOption : ∀ {a b : Option Stmt}, Stmt.sameOption a b = true → a = b
  | none, b, h => by cases b <;> simp_all [Stmt.sameOption]
  | some a, b, h => by
    cases b <;> simp only [Stmt.sameOption, Bool.false_eq_true] at h
    rw [Stmt.eq_of_same h]

theorem Stmt.eq_of_sameList : ∀ {as bs : List Stmt}, Stmt.sameList as bs = true → as = bs
  | [], bs, h => by cases bs <;> simp_all [Stmt.sameList]
  | a :: as, bs, h => by
    cases bs with
    | nil => simp [Stmt.sameList] at h
    | cons b bs =>
      simp only [Stmt.sameList, Bool.and_eq_true] at h
      rw [Stmt.eq_of_same h.1, Stmt.eq_of_sameList h.2]

theorem Block.eq_of_same : ∀ {a b : Block}, a.same b = true → a = b
  | .mk ss _, .mk ts _, h => by
    simp only [Block.same, Bool.and_eq_true, beq_iff_eq] at h
    obtain ⟨rfl, hs⟩ := h
    rw [Stmt.eq_of_sameList hs]

end

instance : DecidableEq Stmt := fun a b =>
  if h : a.same b = true then .isTrue (Stmt.eq_of_same h)
  else .isFalse fun e => h (e ▸ Stmt.same_refl a)

instance : DecidableEq Block := fun a b =>
  if h : a.same b = true then .isTrue (Block.eq_of_same h)
  else .isFalse fun e => h (e ▸ Block.same_refl a)

end Recast
