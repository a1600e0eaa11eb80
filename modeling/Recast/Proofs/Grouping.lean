import Recast.Proofs.Runs
import Recast.Proofs.Sound

/-!
# Grouping by strength

An expression that is written without parentheses of its own can be rebuilt from its chain, the
operands that are no binary expressions and the operators between them, if its operators are grouped
by their strengths (`Grouped.extendAll_rest`). The strengths are a parameter here, since the source
and the target order their operators differently. What is read from a source is grouped by the
strengths of the source, and so is what it is lowered to (`MadeOf.lowered`).
-/

namespace Recast.Target.Expr

/-- The operator of a binary expression. -/
def top? : Expr → Option Operator
  | .binary op _ _ => some op
  | _ => none

/-- A chain of operands goes on with an operator and an operand, which take the last operand of the
chain from an operator that is weaker. -/
def extend (strength : Operator → Nat) (x : Expr) (op : Operator) (u : Expr) : Expr :=
  match x with
  | .binary op' l r =>
    if strength op' < strength op then .binary op' l (r.extend strength op u)
    else .binary op (.binary op' l r) u
  | x => .binary op x u

/-- Of two nested operators the inner one is the stronger, or they are as strong as each other and
the inner one stands on the left. -/
def Grouped (strength : Operator → Nat) : Expr → Prop
  | .binary op l r =>
    (∀ o, l.top? = some o → strength op ≤ strength o) ∧
      (∀ o, r.top? = some o → strength op < strength o) ∧
      l.Grouped strength ∧ r.Grouped strength
  | .unary _ x | .paren x | .message x => x.Grouped strength
  | .literal _ | .name _ | .placeholder => True

/-- Every operator has its place: those between operands have a strength, and the prefix operators
stand before operands that are no binary expressions. -/
def Formed (strength : Operator → Nat) : Expr → Prop
  | .literal _ | .name _ => True
  | .binary op l r => 0 < strength op ∧ l.Formed strength ∧ r.Formed strength
  | .unary op x => op.isUnary = true ∧ x.top? = none ∧ x.Formed strength
  | .paren x => x.Formed strength
  | .message _ | .placeholder => False

/-! ## Texts -/

theorem toList_text_binary (op : Operator) (l r : Expr) :
    (binary op l r).text.toList =
      l.text.toList ++ ' ' :: (op.text.toList ++ ' ' :: r.text.toList) := by
  simp [text, String.toList_append]

theorem toList_text_unary (op : Operator) (x : Expr) :
    (unary op x).text.toList = op.text.toList ++ x.text.toList := by
  simp [text, String.toList_append]

theorem toList_text_paren (x : Expr) :
    (paren x).text.toList = '(' :: (x.text.toList ++ [')']) := by
  simp [text, String.toList_append]

/-! ## Chains -/

/-- The first operand of a chain. -/
def first : Expr → Expr
  | .binary _ l _ => l.first
  | x => x

/-- The operators of a chain, each with the operand after it. -/
def rest : Expr → List (Operator × Expr)
  | .binary op l r => l.rest ++ (op, r.first) :: r.rest
  | _ => []

/-- A chain that goes on with several operators and operands. -/
def extendAll (strength : Operator → Nat) (x : Expr) (us : List (Operator × Expr)) : Expr :=
  us.foldl (fun x u => x.extend strength u.1 u.2) x

section

variable {strength : Operator → Nat} {x l r u : Expr} {op : Operator}

theorem first_of_top?_eq_none (h : x.top? = none) : x.first = x := by
  cases x with
  | binary => cases h
  | _ => rfl

theorem rest_of_top?_eq_none (h : x.top? = none) : x.rest = [] := by
  cases x with
  | binary => cases h
  | _ => rfl

theorem extend_of_le (h : ∀ o, x.top? = some o → strength op ≤ strength o) :
    x.extend strength op u = .binary op x u := by
  cases x with
  | binary op' l r => exact if_neg (Nat.not_lt.2 (h op' rfl))
  | _ => rfl

theorem extendAll_binary {us : List (Operator × Expr)}
    (h : ∀ v ∈ us, strength op < strength v.1) :
    (Expr.binary op l r).extendAll strength us = .binary op l (r.extendAll strength us) := by
  induction us generalizing r with
  | nil => rfl
  | cons v us ih =>
    have hv : (Expr.binary op l r).extend strength v.1 v.2
        = .binary op l (r.extend strength v.1 v.2) :=
      if_pos (h v List.mem_cons_self)
    calc (Expr.binary op l r).extendAll strength (v :: us)
        = ((Expr.binary op l r).extend strength v.1 v.2).extendAll strength us := rfl
      _ = (Expr.binary op l (r.extend strength v.1 v.2)).extendAll strength us := by rw [hv]
      _ = .binary op l ((r.extend strength v.1 v.2).extendAll strength us) :=
        ih fun w hw => h w (List.mem_cons_of_mem v hw)

/-- The operator on top of a grouped expression is the weakest of its chain. -/
theorem Grouped.le_of_mem_rest : ∀ {x : Expr}, x.Grouped strength → ∀ {o : Operator},
    x.top? = some o → ∀ u ∈ x.rest, strength o ≤ strength u.1
  | .binary op l r, h, o, ho => by
    obtain ⟨hleft, hright, hl, hr⟩ := h
    obtain rfl := Option.some.inj ho
    have hl' : ∀ u ∈ l.rest, strength op ≤ strength u.1 := by
      intro u hu
      cases htop : l.top? with
      | none => simp [rest_of_top?_eq_none htop] at hu
      | some o => exact Nat.le_trans (hleft o htop) (hl.le_of_mem_rest htop u hu)
    have hr' : ∀ u ∈ r.rest, strength op ≤ strength u.1 := by
      intro u hu
      cases htop : r.top? with
      | none => simp [rest_of_top?_eq_none htop] at hu
      | some o => exact Nat.le_trans (Nat.le_of_lt (hright o htop)) (hr.le_of_mem_rest htop u hu)
    intro u hu
    rcases List.mem_append.1 hu with hu | hu
    · exact hl' u hu
    · rcases List.mem_cons.1 hu with rfl | hu
      · exact Nat.le_refl _
      · exact hr' u hu

/-- A grouped expression is what its chain makes. -/
theorem Grouped.extendAll_rest : ∀ {x : Expr}, x.Grouped strength →
    x.first.extendAll strength x.rest = x
  | .binary op l r, h => by
    obtain ⟨hleft, hright, hl, hr⟩ := h
    have hstronger : ∀ u ∈ r.rest, strength op < strength u.1 := by
      intro u hu
      cases htop : r.top? with
      | none => simp [rest_of_top?_eq_none htop] at hu
      | some o => exact Nat.lt_of_lt_of_le (hright o htop) (hr.le_of_mem_rest htop u hu)
    calc l.first.extendAll strength (l.rest ++ (op, r.first) :: r.rest)
        = ((l.first.extendAll strength l.rest).extend strength op r.first).extendAll strength
            r.rest := by rw [extendAll, List.foldl_append]; rfl
      _ = (l.extend strength op r.first).extendAll strength r.rest := by rw [hl.extendAll_rest]
      _ = (Expr.binary op l r.first).extendAll strength r.rest := by rw [extend_of_le hleft]
      _ = .binary op l (r.first.extendAll strength r.rest) := extendAll_binary hstronger
      _ = .binary op l r := by rw [hr.extendAll_rest]
  | .literal _, _ | .name _, _ | .unary _ _, _ | .paren _, _ | .message _, _
  | .placeholder, _ => rfl

theorem top?_extend {o : Operator} (h : (x.extend strength op u).top? = some o) :
    o = op ∨ x.top? = some o := by
  unfold extend at h
  split at h
  · split at h
    · exact .inr h
    · exact .inl (Option.some.inj h).symm
  · exact .inl (Option.some.inj h).symm

/-- A chain that goes on stays grouped. -/
theorem Grouped.extend (hu : u.Grouped strength) (ht : u.top? = none) :
    ∀ {x : Expr}, x.Grouped strength → (x.extend strength op u).Grouped strength
  | .binary op' l r, h => by
    have hright : ∀ o, u.top? = some o → strength op < strength o := by simp [ht]
    rw [Expr.extend]
    split
    · rename_i hlt
      obtain ⟨hl, hr, hlg, hrg⟩ := h
      refine ⟨hl, fun o ho => ?_, hlg, Grouped.extend hu ht hrg⟩
      rcases top?_extend ho with rfl | ho
      · exact hlt
      · exact hr o ho
    · rename_i hlt
      refine ⟨fun o ho => ?_, hright, h, hu⟩
      obtain rfl := Option.some.inj ho
      exact Nat.le_of_not_lt hlt
  | .literal _, h | .name _, h | .unary _ _, h | .paren _, h | .message _, h | .placeholder, h => by
    exact ⟨by simp [top?], by simp [ht], h, hu⟩

end

end Recast.Target.Expr

/-! ## Operator trees of a source -/

namespace Recast

theorem Operator.MadeOf.strength_pos {op : Operator} {us : Forest} (h : op.MadeOf us) :
    0 < op.strength := by
  cases h with
  | mark hp =>
    revert hp
    cases op <;> decide
  | andNot | logicalAnd => decide

end Recast

namespace Recast.Expr

def isCall : Expr → Bool
  | .call .. => true
  | _ => false

/-- The operators, operands and parentheses of an expression, without their places. -/
def tree : Expr → Target.Expr
  | .literal t _ => .literal t
  | .name x => .name x.name
  | .binary op l r _ => .binary op l.tree r.tree
  | .unary op e _ => .unary op e.tree
  | .paren e _ => .paren e.tree
  | .call .. | .selector .. | .unsupported _ => .placeholder

/-- Every expression is one of its parts. -/
theorem self_mem_parts (e : Expr) : e ∈ e.parts := by
  cases e <;> simp [parts]

theorem top?_tree (e : Expr) : e.tree.top? = e.top? := by
  cases e <;> rfl

theorem tree_extend (op : Operator) (u : Expr) :
    ∀ e : Expr, (e.extend op u).tree = e.tree.extend Operator.strength op u.tree
  | .binary op' l r span => by
    by_cases h : op'.strength < op.strength
    · have hs : (Expr.binary op' l r span).extend op u
          = .binary op' l (r.extend op u) (span.through u.span) := if_pos h
      have ht : (Target.Expr.binary op' l.tree r.tree).extend Operator.strength op u.tree
          = .binary op' l.tree (r.tree.extend Operator.strength op u.tree) := if_pos h
      rw [hs, tree, tree_extend op u r]
      exact ht.symm
    · have hs : (Expr.binary op' l r span).extend op u
          = .binary op (.binary op' l r span) u (span.through u.span) := if_neg h
      have ht : (Target.Expr.binary op' l.tree r.tree).extend Operator.strength op u.tree
          = .binary op (.binary op' l.tree r.tree) u.tree := if_neg h
      rw [hs]
      exact ht.symm
  | .literal .. | .name _ | .unary .. | .paren .. | .call .. | .selector .. | .unsupported _ => rfl

/-- What an expression without calls is lowered to is its tree, and the tree is grouped by the
strengths of the source. -/
theorem MadeOf.lowered {src : Source} :
    ∀ {e : Expr} {us : Forest}, e.MadeOf us → (∀ c ∈ e.parts, c.isCall = false) →
      ∀ {x : Target.Expr} {ds : List Degradation}, e.lower src = ⟨.ok x, ds⟩ →
        x = e.tree ∧ e.tree.Formed Operator.strength ∧ e.tree.Grouped Operator.strength
  | .literal t span, us, h, hcalls, x, ds, hlower => by
    cases hlower
    exact ⟨rfl, trivial, trivial⟩
  | .name y, us, h, hcalls, x, ds, hlower => by
    cases hlower
    exact ⟨rfl, trivial, trivial⟩
  | .binary op l r span, us, h, hcalls, x, ds, hlower => by
    obtain ⟨l', ls, r', rs, hl', hr', rfl, -⟩ := lower_binary_ok.1 hlower
    obtain ⟨hcl, hcr⟩ := List.forall_mem_append.1 (List.forall_mem_cons.1 hcalls).2
    cases h with
    | binary hl ho hr hleft hright =>
      obtain ⟨rfl, hlf, hlg⟩ := hl.lowered hcl hl'
      obtain ⟨rfl, hrf, hrg⟩ := hr.lowered hcr hr'
      refine ⟨rfl, ⟨ho.strength_pos, hlf, hrf⟩, ?_, ?_, hlg, hrg⟩
      · rwa [top?_tree]
      · rwa [top?_tree]
  | .unary op e span, us, h, hcalls, x, ds, hlower => by
    obtain ⟨vs, he, ht⟩ : ∃ vs, e.MadeOf vs ∧ e.top? = none := by
      cases h with
      | unary ho he ht | receive he ht => exact ⟨_, he, ht⟩
    obtain ⟨ho, e', he', rfl⟩ := lower_unary_ok.1 hlower
    obtain ⟨rfl, hf, hg⟩ := he.lowered (List.forall_mem_cons.1 hcalls).2 he'
    exact ⟨rfl, ⟨ho, by rw [top?_tree, ht], hf⟩, hg⟩
  | .paren e span, us, h, hcalls, x, ds, hlower => by
    obtain ⟨e', he', rfl⟩ := lower_paren_ok.1 hlower
    cases h with
    | paren he =>
      obtain ⟨rfl, hf, hg⟩ := he.lowered (List.forall_mem_cons.1 hcalls).2 he'
      exact ⟨rfl, hf, hg⟩
  | .call callee args span, us, h, hcalls, x, ds, hlower => by
    have hcall := hcalls _ (self_mem_parts _)
    cases hcall
  | .selector e y span, us, h, hcalls, x, ds, hlower => by cases hlower
  | .unsupported span, us, h, hcalls, x, ds, hlower => by cases hlower

end Recast.Expr
