import Recast.Proofs.Printed

/-!
# The trees of a printed expression

The pieces of a printed expression become trees that have its shape (`Target.Expr.Cut.builds`). How
pieces become trees is said for a stretch of them in any surroundings (`Piece.Builds`), so that
stretches can be put together and into brackets. The printing decides what stands between the
trees: an operator and its right operand follow a blank, whatever stood there in the source that
the expression was read from.
-/

namespace Recast

/-! ## Stretches of pieces -/

/-- The gap before the first tree. -/
def Forest.gap? (us : Forest) : Option Gap := us.head?.map Tree.gap

theorem Forest.gap?_append {us : Forest} {gap : Gap} (h : us.gap? = some gap) (vs : Forest) :
    Forest.gap? (us ++ vs) = some gap := by
  cases us with
  | nil => cases h
  | cons t us => exact h

namespace Piece

/-- Pieces that begin at an offset, after a gap, become trees, whatever is open, done and still to
come; what comes next begins at another offset, after another gap. -/
def Builds (start : Nat) (gap : Gap) (ps : List Piece) (us : Forest) (stop : Nat) (after : Gap) :
    Prop :=
  ∀ opened done qs, Forest.build opened done (Lexeme.ofPieces start gap (ps ++ qs))
    = Forest.build opened (us.reverse ++ done) (Lexeme.ofPieces stop after qs)

namespace Builds

variable {start middle stop : Nat} {gap between after : Gap} {ps qs : List Piece} {us vs : Forest}

theorem append (h : Builds start gap ps us middle between)
    (k : Builds middle between qs vs stop after) :
    Builds start gap (ps ++ qs) (us ++ vs) stop after := by
  intro opened done rs
  rw [List.append_assoc, h, k, List.reverse_append, List.append_assoc]

theorem leaf {p : Piece} {kind : LexemeKind} (hp : Lexeme.kindOf? p = some kind)
    (ho : ∀ b, kind ≠ .mark (.opening b)) (hc : ∀ b, kind ≠ .mark (.closing b)) (start : Nat)
    (gap : Gap) :
    ∃ span, Builds start gap [p] [.leaf ⟨kind, gap, span⟩] (start + utf8Length p.text) .none := by
  refine ⟨⟨start, start + utf8Length p.text⟩, fun opened done qs => ?_⟩
  simp only [List.singleton_append, Lexeme.ofPieces, hp]
  rw [Forest.build]
  split
  · rename_i b hk
    exact absurd hk (ho b)
  · rename_i b hk
    exact absurd hk (hc b)
  · rfl

theorem skip {p : Piece} (hp : Lexeme.kindOf? p = none) (start : Nat) (gap : Gap) :
    Builds start gap [p] [] (start + utf8Length p.text) (gap.extend p) := by
  intro opened done qs
  simp only [List.singleton_append, Lexeme.ofPieces, hp]
  rfl

/-- What stands in brackets becomes a group. -/
theorem group (opening closing : Piece) {b : Bracket}
    (ho : Lexeme.kindOf? opening = some (.mark (.opening b)))
    (hc : Lexeme.kindOf? closing = some (.mark (.closing b)))
    (h : Builds (start + utf8Length opening.text) .none ps us stop after) (gap : Gap) :
    ∃ span, Builds start gap (opening :: (ps ++ [closing])) [.group b gap us after span]
      (stop + utf8Length closing.text) .none := by
  refine ⟨⟨start, stop + utf8Length closing.text⟩, fun opened done qs => ?_⟩
  rw [List.cons_append, List.append_assoc]
  simp only [Lexeme.ofPieces, ho]
  rw [Forest.build]
  simp only [h _ _ _, List.singleton_append, Lexeme.ofPieces, hc]
  rw [Forest.build]
  simp [Span.through]

/-- A blank after a tree. -/
theorem thenBlank (h : Builds start gap ps us stop .none) :
    Builds start gap (ps ++ [blank]) us (stop + 1) .blank := by
  have hb := h.append (skip (p := blank) rfl stop .none)
  rwa [List.append_nil] at hb

end Builds

end Piece

/-! ## Operators -/

namespace Operator

/-- The mark of an operator becomes a leaf. -/
theorem builds (op : Operator) (start : Nat) (gap : Gap) :
    ∃ span stop, Piece.Builds start gap [Piece.ofOperator op]
      [.leaf ⟨.mark (.operator op), gap, span⟩] stop .none := by
  obtain ⟨span, hb⟩ :=
    Piece.Builds.leaf (p := Piece.ofOperator op) rfl (by simp) (by simp) start gap
  exact ⟨span, _, hb⟩

/-- The pieces of an operator between operands become trees that are the operator. -/
theorem pieces_builds {op : Operator} (h : 0 < op.strength) (start : Nat) (gap : Gap) :
    ∃ os stop, op.MadeOf os ∧ Forest.gap? os = some gap ∧
      Piece.Builds start gap op.pieces os stop .none := by
  have htwo : ∀ a b : Operator, ∃ s t stop, Piece.Builds start gap
      [Piece.ofOperator a, Piece.ofOperator b]
      [.leaf ⟨.mark (.operator a), gap, s⟩, .leaf ⟨.mark (.operator b), .none, t⟩] stop .none := by
    intro a b
    obtain ⟨s, middle, ha⟩ := a.builds start gap
    obtain ⟨t, stop, hb⟩ := b.builds middle .none
    exact ⟨s, t, stop, ha.append hb⟩
  by_cases hnot : op = .andNot
  · subst hnot
    obtain ⟨s, t, stop, hb⟩ := htwo .and .xor
    exact ⟨_, stop, .andNot, rfl, hb⟩
  by_cases hand : op = .logicalAnd
  · subst hand
    obtain ⟨s, t, stop, hb⟩ := htwo .and .and
    exact ⟨_, stop, .logicalAnd, rfl, hb⟩
  · have hone : op.pieces = [Piece.ofOperator op] := by
      cases op <;> first | rfl | contradiction
    obtain ⟨span, stop, hb⟩ := op.builds start gap
    refine ⟨[.leaf ⟨.mark (.operator op), gap, span⟩], stop, .mark ?_, rfl, hone ▸ hb⟩
    revert h
    cases op <;> decide

end Operator

/-! ## Expressions -/

namespace Target.Expr

/-- The trees that a printed expression is. -/
inductive Shown : Expr → Forest → Prop
  | literal {kind : LiteralKind} {t : String} {gap : Gap} {span : Span} :
      Shown (.literal t) [.leaf ⟨.literal kind t, gap, span⟩]
  | name {w : String} {gap : Gap} {span : Span} (hw : isTypeWord w = false) :
      Shown (.name w) [.leaf ⟨.word w, gap, span⟩]
  | binary {op : Operator} {l r : Expr} {ls os rs : Forest} (hl : Shown l ls)
      (ho : op.MadeOf os) (hos : os.gap? = some .blank) (hr : Shown r rs)
      (hrs : rs.gap? = some .blank) : Shown (.binary op l r) (ls ++ (os ++ rs))
  | unary {op : Operator} {x : Expr} {gap : Gap} {span : Span} {us : Forest}
      (ho : op.isUnary = true) (hx : Shown x us) :
      Shown (.unary op x) (.leaf ⟨.mark (.operator op), gap, span⟩ :: us)
  | paren {x : Expr} {gap closing : Gap} {span : Span} {us : Forest} (hx : Shown x us) :
      Shown (.paren x) [.group .paren gap us closing span]

theorem Cut.builds {x : Expr} {ps : List Recast.Piece} (h : x.Cut ps) (start : Nat) (gap : Gap) :
    ∃ us stop, x.Shown us ∧ us.gap? = some gap ∧
      Recast.Piece.Builds start gap ps us stop .none := by
  induction h generalizing start gap with
  | @literal kind t =>
    have hk : Lexeme.kindOf? ⟨.literal kind, t.toList⟩ = some (.literal kind t) := by
      simp [Lexeme.kindOf?]
    obtain ⟨span, hb⟩ := Recast.Piece.Builds.leaf hk (by simp) (by simp) start gap
    exact ⟨_, _, .literal, rfl, hb⟩
  | @name w hs hw =>
    have hk : Lexeme.kindOf? ⟨.word, w.toList⟩ = some (.word w) := by simp [Lexeme.kindOf?]
    obtain ⟨span, hb⟩ := Recast.Piece.Builds.leaf hk (by simp) (by simp) start gap
    exact ⟨_, _, .name hw, rfl, hb⟩
  | binary hl ho hr ihl ihr =>
    obtain ⟨ls, m₁, hls, hgap, hleft⟩ := ihl start gap
    obtain ⟨os, m₂, hop, hos, hmiddle⟩ := Operator.pieces_builds ho (m₁ + 1) .blank
    obtain ⟨rs, stop, hrs, hrgap, hright⟩ := ihr (m₂ + 1) .blank
    refine ⟨_, stop, .binary hls hop hos hrs hrgap, Forest.gap?_append hgap _, ?_⟩
    have hall := hleft.thenBlank.append (hmiddle.thenBlank.append hright)
    simpa using hall
  | @unary op x ps ho hx ih =>
    obtain ⟨span, middle, hop⟩ := op.builds start gap
    obtain ⟨us, stop, hus, -, hin⟩ := ih middle .none
    exact ⟨_, stop, .unary ho hus, rfl, hop.append hin⟩
  | paren hx ih =>
    obtain ⟨us, stop, hus, -, hin⟩ := ih (start + 1) .none
    obtain ⟨span, hb⟩ := Recast.Piece.Builds.group ⟨.mark (.opening .paren), ['(']⟩
      ⟨.mark (.closing .paren), [')']⟩ rfl rfl hin gap
    exact ⟨_, _, .paren hus, rfl, hb⟩

end Target.Expr

end Recast
