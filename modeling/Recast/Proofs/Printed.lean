import Recast.Lexis.Forest
import Recast.Proofs.Grouping
import Recast.Proofs.Operands
import Recast.Proofs.Parts

/-!
# The pieces of a printed expression

The text of an expression that was read and lowered is cut into the pieces that it was printed from
(`Target.Expr.Cut.scan`): names and literals stand as they were read, an operator between operands
has blanks around it, and a prefix operator is a mark of its own whatever operand comes after it,
so that `--x` is cut into three pieces.
-/

namespace Recast

/-! ## Operators -/

namespace Piece

/-- The piece that a mark of one operator is. -/
def ofOperator (op : Operator) : Piece := ⟨.mark (.operator op), op.text.toList⟩

def blank : Piece := ⟨.blank, [' ']⟩

theorem meaningful_blank (ps : List Piece) : meaningful (blank :: ps) = meaningful ps :=
  List.filter_cons_of_neg (by decide)

theorem scan_of_measure? {c : Char} (cs : List Char) {kind : PieceKind} {ps : List Piece}
    {rest : List Char} (hm : measure? c (cs ++ rest) = some (kind, cs.length))
    (h : scan rest = .ok ps) : scan (c :: (cs ++ rest)) = .ok (⟨kind, c :: cs⟩ :: ps) := by
  rw [scan, hm]
  simp only [List.drop_left, List.take_left, h]

theorem scan_blank {rest : List Char} {ps : List Piece} (h : scan rest = .ok ps) :
    scan (' ' :: rest) = .ok (blank :: ps) :=
  scan_of_measure? [] rfl h

/-- A piece that stands before what ends it. -/
theorem Stands.scan {p : Piece} (hp : p.Stands) {rest : List Char} {ps : List Piece}
    (hr : EndsOperand rest) (h : Piece.scan rest = .ok ps) :
    Piece.scan (p.text ++ rest) = .ok (p :: ps) := by
  obtain ⟨c, cs, hcs, hm⟩ := hp
  rw [hcs, List.cons_append, scan_of_measure? cs (hm rest hr) h, ← hcs]

/-- The characters that begin the marks of a printed text. -/
def markInitials : List Char :=
  ['+', '-', '*', '/', '%', '&', '|', '^', '<', '>', '=', '!', '(', ')', '{', '}']

theorem measure?_mark {c : Char} (hc : c ∈ markInitials) {cs : List Char}
    (hcomment : c ≠ '/' ∨ commentLength? cs = none) :
    measure? c cs = (Mark.read? c cs).map fun (m, n) => (.mark m, n) := by
  have hinitials : markInitials.all (fun c => !isBlank c && !Letter.isInitial c && !c.isDigit
      && c != '.' && c != '"' && c != '`' && c != '\'') = true := by
    decide
  have hc' := List.all_eq_true.1 hinitials c hc
  simp only [Bool.and_eq_true, bne_iff_ne, Bool.not_eq_true'] at hc'
  obtain ⟨⟨⟨⟨⟨⟨hb, hi⟩, hdigit⟩, hpoint⟩, hdouble⟩, hraw⟩, hsingle⟩ := hc'
  have hn : Number.length (c :: cs) = 0 := Number.length_eq_zero hdigit hpoint cs
  have hq : ∀ kind tail, ¬ Quote c kind tail := by
    rintro _ _ (_ | _ | _)
    · exact hdouble rfl
    · exact hraw rfl
    · exact hsingle rfl
  have hnone : (if c == '/' then commentLength? cs else none) = none := by
    rcases hcomment with h | h
    · exact if_neg (by simpa using h)
    · rw [h, ite_self]
  rw [measure?_of_not_quote (by simp [hb]) (by simp [hi]) (by simp [hn]) hq, hnone,
    Option.elim_none]

/-- A mark that is read whatever comes after it. -/
theorem scan_mark {c : Char} (cs : List Char) {m : Mark} {rest : List Char} {ps : List Piece}
    (hc : c ∈ markInitials) (hcomment : c ≠ '/' ∨ commentLength? (cs ++ rest) = none)
    (hm : Mark.read? c (cs ++ rest) = some (m, cs.length)) (h : scan rest = .ok ps) :
    scan (c :: (cs ++ rest)) = .ok (⟨.mark m, c :: cs⟩ :: ps) := by
  refine scan_of_measure? cs ?_ h
  rw [measure?_mark hc hcomment, hm]
  rfl

end Piece

namespace Operator

open Piece (ofOperator)

/-- The pieces of an operator between operands. -/
def pieces : Operator → List Piece
  | .andNot => [ofOperator .and, ofOperator .xor]
  | .logicalAnd => [ofOperator .and, ofOperator .and]
  | op => [ofOperator op]

theorem meaningful_pieces (op : Operator) : Piece.meaningful op.pieces = op.pieces := by
  cases op <;> rfl

theorem text_pieces (op : Operator) : op.pieces.flatMap Piece.text = op.text.toList := by
  cases op <;> rfl

/-- An operator between operands is written between blanks. -/
theorem scan_pieces {op : Operator} (h : 0 < op.strength) {rest : List Char} {ps : List Piece}
    (hs : Piece.scan rest = .ok ps) :
    Piece.scan (' ' :: (op.text.toList ++ ' ' :: rest))
      = .ok (Piece.blank :: (op.pieces ++ Piece.blank :: ps)) := by
  apply Piece.scan_blank
  have hb := Piece.scan_blank hs
  cases op with
  | add | sub | mul | rem | and | or | xor | less | greater =>
    exact Piece.scan_mark [] (by decide) (.inl (by decide)) rfl hb
  | quo => exact Piece.scan_mark [] (by decide) (.inr rfl) rfl hb
  | andNot | logicalAnd =>
    exact Piece.scan_mark [] (by decide) (.inl (by decide)) rfl
      (Piece.scan_mark [] (by decide) (.inl (by decide)) rfl hb)
  | shl => exact Piece.scan_mark ['<'] (by decide) (.inl (by decide)) rfl hb
  | shr => exact Piece.scan_mark ['>'] (by decide) (.inl (by decide)) rfl hb
  | logicalOr => exact Piece.scan_mark ['|'] (by decide) (.inl (by decide)) rfl hb
  | equal | notEqual | lessEqual | greaterEqual =>
    exact Piece.scan_mark ['='] (by decide) (.inl (by decide)) rfl hb
  | _ => exact absurd h (by decide)

/-- A prefix operator is a mark of its own, as no operand begins with `=`. -/
theorem scan_prefix {op : Operator} (h : op.isUnary = true) {c : Char} {cs : List Char}
    {ps : List Piece} (hc : c ≠ '=') (hs : Piece.scan (c :: cs) = .ok ps) :
    Piece.scan (op.text.toList ++ c :: cs) = .ok (ofOperator op :: ps) := by
  have hread : ∀ {d : Char} {m : Mark}, d ≠ '/' → d ∈ Piece.markInitials →
      Mark.read? d (c :: cs) = some (m, 0) →
      Piece.scan (d :: c :: cs) = .ok (⟨.mark m, [d]⟩ :: ps) :=
    fun hd hb hm => Piece.scan_mark [] hb (.inl hd) hm hs
  have hsigns : Mark.read? '+' (c :: cs) = some (.operator .add, 0) ∧
      Mark.read? '-' (c :: cs) = some (.operator .sub, 0) ∧
      Mark.read? '!' (c :: cs) = some (.operator .not, 0) := by
    simp [Mark.read?, hc]
  obtain ⟨hadd, hsub, hnot⟩ := hsigns
  cases op with
  | add => exact hread (by decide) (by decide) hadd
  | sub => exact hread (by decide) (by decide) hsub
  | not => exact hread (by decide) (by decide) hnot
  | _ => cases h

end Operator

/-! ## Expressions -/

namespace Target.Expr

/-- The pieces that an expression is printed from. -/
inductive Cut : Expr → List Recast.Piece → Prop
  | literal {kind : LiteralKind} {t : String} (h : Recast.Piece.Stands ⟨.literal kind, t.toList⟩) :
      Cut (.literal t) [⟨.literal kind, t.toList⟩]
  | name {w : String} (h : Recast.Piece.Stands ⟨.word, w.toList⟩) (hw : isTypeWord w = false) :
      Cut (.name w) [⟨.word, w.toList⟩]
  | binary {op : Operator} {l r : Expr} {ps qs : List Recast.Piece} (hl : Cut l ps)
      (ho : 0 < op.strength) (hr : Cut r qs) :
      Cut (.binary op l r) (ps ++ Recast.Piece.blank :: (op.pieces ++ Recast.Piece.blank :: qs))
  | unary {op : Operator} {x : Expr} {ps : List Recast.Piece} (ho : op.isUnary = true)
      (hx : Cut x ps) :
      Cut (.unary op x) (Recast.Piece.ofOperator op :: ps)
  | paren {x : Expr} {ps : List Recast.Piece} (hx : Cut x ps) :
      Cut (.paren x)
        (⟨.mark (.opening .paren), ['(']⟩ :: (ps ++ [⟨.mark (.closing .paren), [')']⟩]))

/-- No expression begins with `=`. -/
theorem Cut.text_eq_cons {x : Expr} {ps : List Recast.Piece} (h : x.Cut ps) :
    ∃ c cs, x.text.toList = c :: cs ∧ c ≠ '=' := by
  have hstands : ∀ {p : Recast.Piece}, p.Stands → (∀ m, p.kind ≠ .mark m) →
      ∃ c cs, p.text = c :: cs ∧ c ≠ '=' := by
    rintro p ⟨c, cs, htext, hm⟩ hk
    refine ⟨c, cs, htext, ?_⟩
    rintro rfl
    have hmark := hm [] (by simp [EndsOperand])
    rw [Recast.Piece.measure?_mark (by decide) (.inl (by decide))] at hmark
    obtain ⟨m, -, he⟩ := Option.map_eq_some_iff.1 hmark
    exact hk m.1 (congrArg Prod.fst he).symm
  induction h with
  | literal h => exact hstands h (by simp)
  | name h => exact hstands h (by simp)
  | binary _ _ _ ihl =>
    obtain ⟨c, cs, htext, hc⟩ := ihl
    exact ⟨c, _, by rw [toList_text_binary, htext, List.cons_append], hc⟩
  | @unary op x ps ho =>
    obtain ⟨d, ds, hd⟩ : ∃ d ds, op.text.toList = d :: ds ∧ d ≠ '=' := by
      cases op with
      | add | sub | not => exact ⟨_, _, rfl, by decide⟩
      | _ => cases ho
    exact ⟨d, _, by rw [toList_text_unary, hd.1, List.cons_append], hd.2⟩
  | paren => exact ⟨'(', _, toList_text_paren _, by decide⟩

/-- The text of an expression is cut into the pieces that it is printed from. -/
theorem Cut.scan {x : Expr} {ps qs : List Recast.Piece} (h : x.Cut ps) {rest : List Char}
    (hrest : EndsOperand rest) (hq : Recast.Piece.scan rest = .ok qs) :
    Recast.Piece.scan (x.text.toList ++ rest) = .ok (ps ++ qs) := by
  induction h generalizing rest qs with
  | literal h => exact h.scan hrest hq
  | name h => exact h.scan hrest hq
  | binary hl ho hr ihl ihr =>
    have hright := Operator.scan_pieces ho (ihr hrest hq)
    have hleft := ihl (by simp [EndsOperand]) hright
    simpa [toList_text_binary] using hleft
  | unary ho hx ih =>
    obtain ⟨c, cs, htext, hc⟩ := hx.text_eq_cons
    have hin := ih hrest hq
    rw [htext, List.cons_append] at hin
    rw [toList_text_unary, List.append_assoc, htext, List.cons_append]
    exact Operator.scan_prefix ho hc hin
  | paren hx ih =>
    have hclosing : Recast.Piece.scan (')' :: rest)
        = .ok (⟨.mark (.closing .paren), [')']⟩ :: qs) :=
      Recast.Piece.scan_mark [] (by decide) (.inl (by decide)) rfl hq
    have hin := ih (by simp [EndsOperand]) hclosing
    have hopening := Recast.Piece.scan_mark (c := '(') [] (by decide) (.inl (by decide)) rfl hin
    simpa [toList_text_paren] using hopening

end Target.Expr

/-! ## Pieces of a source -/

namespace Forest.Spread

open Piece (meaningful)

variable {n : Nat} {ps : List Piece} {us : Forest}

theorem meaningful_nil (h : Spread n ps []) : meaningful ps = [] :=
  Piece.meaningful_eq_nil (nil_iff.1 h)

theorem meaningful_leaf {l : Lexeme} (h : Spread n ps (.leaf l :: us)) :
    ∃ p m rest, meaningful ps = p :: meaningful rest ∧ Lexeme.kindOf? p = some l.kind ∧
      Spread m rest us := by
  obtain ⟨blanks, p, rest, rfl, hblanks, hk, -, hs⟩ := h.of_leaf
  refine ⟨p, _, rest, ?_, hk, hs⟩
  rw [Piece.meaningful_append, Piece.meaningful_eq_nil hblanks, Piece.meaningful_cons hk]
  rfl

theorem meaningful_group {b : Bracket} {gap closing : Gap} {inner : Forest} {span : Span}
    (h : Spread n ps [.group b gap inner closing span]) :
    ∃ l m inside r, meaningful ps = l :: (meaningful inside ++ [r]) ∧
      Lexeme.kindOf? l = some (.mark (.opening b)) ∧
      Lexeme.kindOf? r = some (.mark (.closing b)) ∧ Spread m inside inner := by
  obtain ⟨blanks, l, inside, r, rest, rfl, hblanks, hl, hr, -, hi, hs⟩ := h.of_group
  refine ⟨l, _, inside, r, ?_, hl, hr, hi⟩
  simp [Piece.meaningful_eq_nil hblanks, Piece.meaningful_cons hl, Piece.meaningful_cons hr,
    hs.meaningful_nil]

end Forest.Spread

/-- A mark is never read as one of the operators that are two marks. -/
theorem Mark.pieces_of_read? {c : Char} {cs : List Char} {op : Operator} {n : Nat}
    (h : Mark.read? c cs = some (.operator op, n)) : op.pieces = [Piece.ofOperator op] := by
  unfold Mark.read? at h
  dsimp only at h
  split at h <;> cases h <;> rfl

/-- The pieces of an operator in a source are those that it is printed from. -/
theorem Operator.MadeOf.meaningful_eq {op : Operator} {os : Forest} (h : op.MadeOf os) {n : Nat}
    {ps : List Piece} (hs : Forest.Spread n ps os) (hm : ∀ p ∈ Piece.meaningful ps, p.Measured) :
    Piece.meaningful ps = op.pieces := by
  cases h with
  | mark =>
    obtain ⟨p, m, rest, hps, hk, hrest⟩ := hs.meaningful_leaf
    rw [hps, hrest.meaningful_nil] at hm ⊢
    have hp := List.forall_mem_singleton.1 hm
    have heq := Lexeme.eq_of_kindOf?_mark hk hp
    obtain ⟨c, cs, k, hread, -⟩ := hp.read?_of_mark (congrArg Piece.kind heq)
    rw [Mark.pieces_of_read? hread, heq]
    rfl
  | andNot | logicalAnd =>
    obtain ⟨p, m, rest, hps, hk, hrest⟩ := hs.meaningful_leaf
    obtain ⟨q, m', rest', hrest', hk', hend⟩ := hrest.meaningful_leaf
    rw [hps, hrest', hend.meaningful_nil] at hm ⊢
    obtain ⟨hp, hq⟩ := List.forall_mem_cons.1 hm
    rw [Lexeme.eq_of_kindOf?_mark hk hp,
      Lexeme.eq_of_kindOf?_mark hk' (List.forall_mem_singleton.1 hq)]
    rfl

/-- An expression that was read from a source is printed from the pieces that have a meaning
there. -/
theorem Expr.MadeOf.exists_cut_meaningful : ∀ {e : Expr} {us : Forest}, e.MadeOf us →
    ∀ {n : Nat} {ps : List Piece}, Forest.Spread n ps us →
      (∀ p ∈ Piece.meaningful ps, p.Measured) → e.tree.Formed Operator.strength →
      ∃ qs, e.tree.Cut qs ∧ Piece.meaningful qs = Piece.meaningful ps
  | .literal t span, us, h, n, ps, hs, hm, hf => by
    cases h with
    | literal =>
      obtain ⟨p, m, rest, hps, hk, hrest⟩ := hs.meaningful_leaf
      rw [hps, hrest.meaningful_nil] at hm ⊢
      obtain rfl := Lexeme.eq_of_kindOf?_literal hk
      have hp := (List.forall_mem_singleton.1 hm).stands (.inr ⟨_, rfl⟩)
      exact ⟨_, .literal hp, Piece.meaningful_cons hk []⟩
  | .name y, us, h, n, ps, hs, hm, hf => by
    cases h with
    | name hw =>
      obtain ⟨p, m, rest, hps, hk, hrest⟩ := hs.meaningful_leaf
      rw [hps, hrest.meaningful_nil] at hm ⊢
      obtain rfl := Lexeme.eq_of_kindOf?_word hk
      have hp := (List.forall_mem_singleton.1 hm).stands (.inl rfl)
      exact ⟨_, .name hp hw, Piece.meaningful_cons hk []⟩
  | .binary op l r span, us, h, n, ps, hs, hm, hf => by
    obtain ⟨hop, hfl, hfr⟩ := hf
    cases h with
    | binary hl ho hr =>
      obtain ⟨ps, rs, rfl, hs, hrs⟩ := hs.split
      obtain ⟨ls, os, rfl, hls, hos⟩ := hs.split
      simp only [Piece.meaningful_append, List.forall_mem_append] at hm
      obtain ⟨⟨hml, hmo⟩, hmr⟩ := hm
      obtain ⟨xs, hxs, hxl⟩ := hl.exists_cut_meaningful hls hml hfl
      obtain ⟨ys, hys, hyr⟩ := hr.exists_cut_meaningful hrs hmr hfr
      refine ⟨_, .binary hxs hop hys, ?_⟩
      simp only [Piece.meaningful_append, Piece.meaningful_blank, Operator.meaningful_pieces, hxl,
        hyr, ho.meaningful_eq hos hmo, List.append_assoc]
  | .unary op e span, us, h, n, ps, hs, hm, hf => by
    obtain ⟨hop, -, hfe⟩ := hf
    cases h with
    | unary ho he ht =>
      obtain ⟨p, m, rest, hps, hk, hrest⟩ := hs.meaningful_leaf
      rw [hps] at hm ⊢
      obtain ⟨hp, hm⟩ := List.forall_mem_cons.1 hm
      obtain ⟨xs, hxs, hxe⟩ := he.exists_cut_meaningful hrest hm hfe
      obtain rfl := Lexeme.eq_of_kindOf?_mark hk hp
      refine ⟨_, .unary hop hxs, ?_⟩
      rw [← hxe]
      exact Piece.meaningful_cons hk xs
    | receive => cases hop
  | .paren e span, us, h, n, ps, hs, hm, hf => by
    cases h with
    | paren he =>
      obtain ⟨l, m, inside, r, hps, hl, hr, hi⟩ := hs.meaningful_group
      rw [hps] at hm ⊢
      simp only [List.forall_mem_cons, List.forall_mem_append] at hm
      obtain ⟨hml, hmi, hmr, -⟩ := hm
      obtain ⟨xs, hxs, hxe⟩ := he.exists_cut_meaningful hi hmi hf
      obtain rfl := Lexeme.eq_of_kindOf?_mark hl hml
      obtain rfl := Lexeme.eq_of_kindOf?_mark hr hmr
      refine ⟨_, .paren hxs, ?_⟩
      rw [← hxe]
      exact (Piece.meaningful_cons hl _).trans
        (congrArg (List.cons _) (Piece.meaningful_append xs _))
  | .call .., us, h, n, ps, hs, hm, hf | .selector .., us, h, n, ps, hs, hm, hf
  | .unsupported _, us, h, n, ps, hs, hm, hf => hf.elim

theorem Expr.MadeOf.exists_cut {src : Source} {e : Expr} {us : Forest} (h : e.MadeOf us)
    (hp : Forest.Placed src us) (hf : e.tree.Formed Operator.strength) : ∃ ps, e.tree.Cut ps := by
  obtain ⟨before, ps, after, hps, hs⟩ := hp
  have hm := (Piece.makeUp_of_ofChars hps).measured
  simp only [Piece.meaningful_append, List.forall_mem_append] at hm
  obtain ⟨qs, hqs, -⟩ := h.exists_cut_meaningful hs hm.1.2 hf
  exact ⟨qs, hqs⟩

end Recast
