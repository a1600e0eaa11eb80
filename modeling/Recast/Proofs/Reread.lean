import Recast.Grammar.File
import Recast.Proofs.PrintedTrees
import Recast.Proofs.Readers

/-!
# Reading the trees of a printed expression

The reader of expressions finds the operands and the operators of a printed expression in its trees,
one after the other (`Target.Expr.Shown.found`). What it makes of them is the expression itself, as
this is grouped by the strengths with which the reader builds (`Target.Expr.Found.read`).
-/

namespace Recast

/-! ## What follows an operand -/

/-- Nothing follows, or an operator. -/
def Forest.AtOperator (rest : Forest) : Prop := ∀ t ∈ rest.head?, t.operator?.isSome = true

theorem Forest.AtOperator.cases {rest : Forest} (h : rest.AtOperator) :
    rest = [] ∨ ∃ op gap span ts, rest = .leaf ⟨.mark (.operator op), gap, span⟩ :: ts := by
  cases rest with
  | nil => exact .inl rfl
  | cons t ts =>
    obtain ⟨op, hop⟩ := Option.isSome_iff_exists.1 (h t rfl)
    obtain ⟨gap, span, rfl⟩ := Tree.operator?_eq_some hop
    exact .inr ⟨op, gap, span, ts, rfl⟩

theorem Operator.MadeOf.atOperator {op : Operator} {os : Forest} (h : op.MadeOf os)
    (rest : Forest) : Forest.AtOperator (os ++ rest) := by
  cases h <;> simp [Forest.AtOperator, Tree.operator?]

/-- Two operators that stand apart are no pair. -/
theorem Forest.pair?_of_gap {s : Tree} {rs : Forest} (h : rs.gap? = some .blank) (rest : Forest) :
    Forest.pair? (s :: (rs ++ rest)) = none := by
  cases rs with
  | nil => cases h
  | cons t rs =>
    have ht : t.touches = false := by
      rw [Tree.touches, Option.some.inj h]
      rfl
    unfold Forest.pair?
    simp only [List.cons_append, ht]
    split <;> rfl

namespace Tree

theorem depthList_append (us vs : Forest) :
    depthList (us ++ vs) = max (depthList us) (depthList vs) := by
  induction us with
  | nil => simp [depthList]
  | cons t us ih => rw [List.cons_append, depthList, depthList, ih, Nat.max_assoc]

end Tree

/-! ## Operands and operators -/

namespace Expr

variable {I : Interior} {p : Place} {rest : Forest} {gap closing : Gap} {span : Span}

theorem readPostfix_of_atOperator (e : Expr) (h : rest.AtOperator) :
    readPostfix I p e rest = some (e, rest) := by
  rcases h.cases with rfl | ⟨op, gap, span, ts, rfl⟩
  · rfl
  · unfold readPostfix
    exact ite_self _

theorem readOperand_of_primary {t : Tree} {ts : Forest} {e : Expr} (ht : t.operator? = none)
    (he : readPrimary I p (t :: ts) = some (e, rest)) (h : rest.AtOperator) :
    readOperand I p (t :: ts) = some (e, rest) := by
  unfold readOperand
  simp only [ht, he, Option.bind_some]
  exact readPostfix_of_atOperator e h

theorem readPrimary_name {w : String} (hw : isTypeWord w = false) (h : rest.AtOperator) :
    readPrimary I p (.leaf ⟨.word w, gap, span⟩ :: rest) = some (.name ⟨w, span⟩, rest) := by
  unfold readPrimary
  rcases h.cases with rfl | ⟨op, gap, span, ts, rfl⟩ <;> exact if_neg (by simp [hw])

theorem readPrimary_paren {inner : Forest} {e : Expr} (he : I.expr inner = some e)
    (h : rest.AtOperator) :
    readPrimary I p (.group .paren gap inner closing span :: rest) =
      some (.paren e span, rest) := by
  unfold readPrimary
  simp only [he]
  rcases h.cases with rfl | ⟨op, gap, span, ts, rfl⟩ <;> rfl

theorem readOperand_prefix {op : Operator} (h : op.isUnary = true) {ts : Forest} {e : Expr}
    (he : readOperand I p ts = some (e, rest)) :
    readOperand I p (.leaf ⟨.mark (.operator op), gap, span⟩ :: ts)
      = some (.unary op e (span.through e.span), rest) := by
  cases op with
  | add | sub | not =>
    unfold readOperand
    simp only [Tree.operator?, Operator.isPrefix, he]
    rfl
  | _ => cases h

/-- An operator is read back, since the operand after it stands apart. -/
theorem readBinary_append {op : Operator} {os rs : Forest} (ho : op.MadeOf os)
    (hos : os.gap? = some .blank) (hrs : rs.gap? = some .blank) (rest : Forest) :
    readBinary p (os ++ (rs ++ rest)) = some (op, rs ++ rest) := by
  unfold readBinary
  cases ho with
  | @mark op gap span hp =>
    obtain rfl : gap = .blank := Option.some.inj hos
    simp [Tree.onNewLine, Tree.gap, Tree.operator?, Forest.pair?_of_gap hrs, hp]
  | @andNot gap s t =>
    obtain rfl : gap = .blank := Option.some.inj hos
    simp [Tree.onNewLine, Tree.gap, Tree.operator?, Forest.pair?, Tree.touches]
  | @logicalAnd gap s t =>
    obtain rfl : gap = .blank := Option.some.inj hos
    simp [Tree.onNewLine, Tree.gap, Tree.operator?, Forest.pair?, Tree.touches]

theorem readChain_nil (e : Expr) : readChain I p e [] = some (e, []) := by
  rw [readChain]
  rfl

theorem readChain_step {op : Operator} {ts rs mid : Forest} {e u : Expr}
    (ho : readBinary p ts = some (op, rs)) (hu : readOperand I p rs = some (u, mid))
    (hlt : mid.length < ts.length) :
    readChain I p e ts = readChain I p (e.extend op u) mid := by
  rw [readChain]
  simp only [ho, hu]
  exact if_pos hlt

end Expr

/-! ## Whole expressions -/

namespace Target.Expr

open Recast.Expr (readOperand readChain)

/-- In the trees the reader finds the first operand of an expression, and then its chain of
operators and operands, by which it extends whatever stands before. -/
def Found (x : Expr) (us : Forest) : Prop :=
  ∀ (n : Nat) (p : Place) (rest : Forest), Tree.depthList us ≤ n → rest.AtOperator →
    ∃ u mid, readOperand (.ofDepth n) p (us ++ rest) = some (u, mid) ∧ u.tree = x.first ∧
      (x.top? = none → mid = rest) ∧ mid.length < us.length + rest.length ∧
      ∀ e, ∃ e', readChain (.ofDepth n) p e mid = readChain (.ofDepth n) p e' rest ∧
        e'.tree = e.tree.extendAll Operator.strength x.rest

/-- An operand is found if it is read as a whole. -/
theorem Found.of_operand {x : Expr} {us : Forest} (hx : x.top? = none) (hus : us ≠ [])
    (h : ∀ (n : Nat) (p : Place) (rest : Forest), Tree.depthList us ≤ n → rest.AtOperator →
      ∃ u, readOperand (.ofDepth n) p (us ++ rest) = some (u, rest) ∧ u.tree = x) :
    x.Found us := by
  intro n p rest hn hrest
  obtain ⟨u, hu, htree⟩ := h n p rest hn hrest
  have hpos := List.length_pos_of_ne_nil hus
  refine ⟨u, rest, hu, ?_, fun _ => rfl, by omega, fun e => ⟨e, rfl, ?_⟩⟩
  · rw [htree, first_of_top?_eq_none hx]
  · rw [rest_of_top?_eq_none hx]
    rfl

/-- What is found and well grouped is read back. -/
theorem Found.read {x : Expr} {us : Forest} (h : x.Found us) (hg : x.Grouped Operator.strength)
    {n : Nat} (hn : Tree.depthList us ≤ n) (p : Place) :
    ∃ e, Recast.Expr.read (.ofDepth n) p us = some (e, []) ∧ e.tree = x := by
  obtain ⟨u, mid, hu, hfirst, -, -, hchain⟩ := h n p [] hn (by simp [Forest.AtOperator])
  obtain ⟨e, he, htree⟩ := hchain u
  rw [List.append_nil] at hu
  refine ⟨e, ?_, ?_⟩
  · rw [Recast.Expr.read, hu]
    exact he.trans (Recast.Expr.readChain_nil e)
  · rw [htree, hfirst, hg.extendAll_rest]

theorem Found.binary {op : Operator} {l r : Expr} {ls os rs : Forest} (hl : l.Found ls)
    (ho : op.MadeOf os) (hos : os.gap? = some .blank) (hr : r.Found rs)
    (hrs : rs.gap? = some .blank) : (Expr.binary op l r).Found (ls ++ (os ++ rs)) := by
  intro n p rest hn hrest
  rw [Tree.depthList_append, Tree.depthList_append] at hn
  obtain ⟨u, mid, hu, hfirst, -, hlen, hchain⟩ :=
    hl n p (os ++ (rs ++ rest)) (by omega) (ho.atOperator _)
  obtain ⟨v, mid', hv, hvfirst, -, hlen', hchain'⟩ := hr n p rest (by omega) hrest
  have hpos := List.length_pos_of_ne_nil ho.ne_nil
  simp only [List.length_append] at hlen
  refine ⟨u, mid, by simpa using hu, hfirst, by simp [top?], ?_, fun e => ?_⟩
  · simp only [List.length_append]
    omega
  · obtain ⟨e₁, he₁, htree₁⟩ := hchain e
    obtain ⟨e₂, he₂, htree₂⟩ := hchain' (e₁.extend op v)
    have hstep : readChain (.ofDepth n) p e₁ (os ++ (rs ++ rest))
        = readChain (.ofDepth n) p (e₁.extend op v) mid' :=
      Recast.Expr.readChain_step (Recast.Expr.readBinary_append ho hos hrs rest) hv
        (by simp only [List.length_append]; omega)
    refine ⟨e₂, by rw [he₁, hstep, he₂], ?_⟩
    calc e₂.tree
        = (e₁.extend op v).tree.extendAll Operator.strength r.rest := htree₂
      _ = (e₁.tree.extend Operator.strength op v.tree).extendAll Operator.strength r.rest := by
        rw [Recast.Expr.tree_extend]
      _ = ((e.tree.extendAll Operator.strength l.rest).extend Operator.strength op
            r.first).extendAll Operator.strength r.rest := by rw [htree₁, hvfirst]
      _ = e.tree.extendAll Operator.strength (l.rest ++ (op, r.first) :: r.rest) := by
        rw [extendAll, extendAll, extendAll, List.foldl_append]
        rfl

/-- The reader finds an expression in the trees that it is shown as. -/
theorem Shown.found {x : Expr} {us : Forest} (h : x.Shown us) (hf : x.Formed Operator.strength)
    (hg : x.Grouped Operator.strength) : x.Found us := by
  induction h with
  | @literal kind t gap span =>
    refine .of_operand rfl (by simp) fun n p rest _ hrest => ?_
    exact ⟨.literal t span, Recast.Expr.readOperand_of_primary rfl rfl hrest, rfl⟩
  | @name w gap span hw =>
    refine .of_operand rfl (by simp) fun n p rest _ hrest => ?_
    exact ⟨.name ⟨w, span⟩, Recast.Expr.readOperand_of_primary rfl
      (Recast.Expr.readPrimary_name hw hrest) hrest, rfl⟩
  | binary hl ho hos hr hrs ihl ihr =>
    obtain ⟨-, hfl, hfr⟩ := hf
    obtain ⟨-, -, hgl, hgr⟩ := hg
    exact .binary (ihl hfl hgl) ho hos (ihr hfr hgr) hrs
  | @unary op x gap span us ho hx ih =>
    obtain ⟨-, htop, hfx⟩ := hf
    refine .of_operand rfl (by simp) fun n p rest hn hrest => ?_
    rw [Tree.depthList] at hn
    obtain ⟨u, mid, hu, hfirst, hmid, -⟩ := ih hfx hg n p rest (by omega) hrest
    obtain rfl := hmid htop
    refine ⟨_, Recast.Expr.readOperand_prefix ho hu, ?_⟩
    rw [Recast.Expr.tree, hfirst, first_of_top?_eq_none htop]
  | @paren x gap closing span us hx ih =>
    refine .of_operand rfl (by simp) fun n p rest hn hrest => ?_
    rw [Tree.depthList, Tree.depthList, Tree.depth] at hn
    obtain ⟨m, rfl⟩ : ∃ m, n = m + 1 := ⟨n - 1, by omega⟩
    obtain ⟨e, he, htree⟩ := (ih hf hg).read hg (by omega : Tree.depthList us ≤ m) .inside
    have hinner : (Interior.ofDepth (m + 1)).expr us = some e := by
      show Reader.whole (Recast.Expr.read (.ofDepth m) .inside) us = some e
      rw [Reader.whole, he]
    refine ⟨_, Recast.Expr.readOperand_of_primary rfl
      (Recast.Expr.readPrimary_paren hinner hrest) hrest, ?_⟩
    rw [Recast.Expr.tree, htree]

end Target.Expr

end Recast
