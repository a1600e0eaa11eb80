import Recast.Proofs.Rescan
import Recast.Proofs.SoundFiles

/-!
# Expressions token for token

The text of an expression is the text of its source, but for white space and comments
(`File.copied_token_for_token`). The trees that an expression is made of stand side by side in the
source, so the slice of their hull is a stretch of its pieces (`Forest.Spread.trim`), and is cut
into these pieces again by itself. The text is cut into the pieces that it is printed from, and of
both the pieces with a meaning are the same.
-/

namespace Recast

open Piece (meaningful width)

/-! ## Texts without blanks -/

namespace Target.Expr

/-- The text of an expression with a separator of one's own on both sides of an operator between
operands. -/
def spaced (sep : String) : Expr → String
  | .literal t => t
  | .name n => n
  | .binary op l r => l.spaced sep ++ sep ++ op.text ++ sep ++ r.spaced sep
  | .unary op x => op.text ++ x.spaced sep
  | .paren x => "(" ++ x.spaced sep ++ ")"
  | .message x => "QString(" ++ x.spaced sep ++ ")"
  | .placeholder => "unsupported"

theorem text_eq_spaced : ∀ x : Expr, x.text = x.spaced " "
  | .literal _ | .name _ | .placeholder => rfl
  | .binary op l r => by rw [text, spaced, text_eq_spaced l, text_eq_spaced r]
  | .unary op x => by rw [text, spaced, text_eq_spaced x]
  | .paren x | .message x => by rw [text, spaced, text_eq_spaced x]

/-- Without the blanks around operators, the text is that of the pieces with a meaning. -/
theorem Cut.spaced_empty {x : Expr} {ps : List Recast.Piece} (h : x.Cut ps) :
    (x.spaced "").toList = (meaningful ps).flatMap Recast.Piece.text := by
  induction h with
  | literal | name => exact (List.append_nil _).symm
  | @binary op l r ps qs hl ho hr ihl ihr =>
    simp only [spaced, String.toList_append, ihl, ihr, Recast.Piece.meaningful_append,
      Recast.Piece.meaningful_blank, Operator.meaningful_pieces, List.flatMap_append,
      Operator.text_pieces]
    simp
  | @unary op x ps ho hx ih =>
    have hop : meaningful (Recast.Piece.ofOperator op :: ps)
        = Recast.Piece.ofOperator op :: meaningful ps := Recast.Piece.meaningful_cons rfl ps
    rw [spaced, String.toList_append, ih, hop, List.flatMap_cons]
    rfl
  | @paren x ps hx ih =>
    have hparens : meaningful
        (⟨.mark (.opening .paren), ['(']⟩ :: (ps ++ [⟨.mark (.closing .paren), [')']⟩]))
        = ⟨.mark (.opening .paren), ['(']⟩ :: (meaningful ps
          ++ [⟨.mark (.closing .paren), [')']⟩]) :=
      (Recast.Piece.meaningful_cons rfl _).trans
        (congrArg (List.cons _) (Recast.Piece.meaningful_append ps _))
    rw [spaced, hparens]
    simp [ih]

end Target.Expr

/-! ## Slices -/

namespace Forest.Spread

variable {n : Nat} {ps : List Piece} {us : Forest}

/-- From the first tree to the last. -/
theorem trim (h : Spread n ps us) (hu : us ≠ []) :
    ∃ blanks q qs rest, ps = blanks ++ (q :: qs) ++ rest ∧
      (∀ p ∈ blanks, Lexeme.kindOf? p = none) ∧ (∀ p ∈ rest, Lexeme.kindOf? p = none) ∧
      Lexeme.kindOf? q ≠ none ∧
      hull us = ⟨n + width blanks, n + width blanks + width (q :: qs)⟩ := by
  induction us generalizing n ps with
  | nil => exact absurd rfl hu
  | cons t us ih =>
    obtain ⟨blanks, q, qs, rest, rfl, hblanks, hq, hspan, hs⟩ := h.of_cons
    cases us with
    | nil => exact ⟨blanks, q, qs, rest, rfl, hblanks, nil_iff.1 hs, hq, hspan⟩
    | cons u us =>
      obtain ⟨gaps, p, inner, rest, rfl, -, hrest, -, hhull⟩ := ih hs (List.cons_ne_nil u us)
      refine ⟨blanks, q, qs ++ gaps ++ p :: inner, rest, by simp, hblanks, hrest, hq, ?_⟩
      rw [hull_cons (List.cons_ne_nil u us), hspan, hhull]
      simp [Span.through, Nat.add_assoc]

end Forest.Spread

/-- The slice of placed trees is cut into the pieces from the first of them to the last. -/
theorem Forest.Placed.slice? {src : Source} {us : Forest} (h : Forest.Placed src us)
    (hu : us ≠ []) :
    ∃ s n ps qs, src.slice? (Forest.hull us) = some s ∧ Piece.scan s.toList = .ok qs ∧
      Forest.Spread n ps us ∧ (∀ p ∈ meaningful ps, p.Measured) ∧
      meaningful qs = meaningful ps := by
  obtain ⟨before, ps, after, hps, hs⟩ := h
  have hm := (Piece.makeUp_of_ofChars hps).measured
  simp only [Piece.meaningful_append, List.forall_mem_append] at hm
  obtain ⟨blanks, q, qs, rest, rfl, hblanks, hrest, hq, hhull⟩ := hs.trim hu
  have hcut : Piece.ofChars src.chars
      = .ok ((before ++ blanks) ++ (q :: qs) ++ (rest ++ after)) := by
    simpa using hps
  have hslice := Source.slice?_pieces hcut
  rw [Piece.width_append, ← hhull] at hslice
  have hscan : Piece.scan ((q :: qs).flatMap Piece.text) = .ok (q :: qs) := by
    apply Piece.scan_of_ofChars hcut
    intro p hp hblank
    cases hp
    rw [Lexeme.kindOf?, hblank] at hq
    exact hq rfl
  refine ⟨_, _, _, q :: qs, hslice, ?_, hs, hm.1.2, ?_⟩
  · rwa [String.toList_ofList]
  · rw [Piece.meaningful_append, Piece.meaningful_append, Piece.meaningful_eq_nil hblanks,
      Piece.meaningful_eq_nil hrest, List.nil_append, List.append_nil]

namespace File

/-- The text of an expression of a file that holds no call is that of the source at its span: the
slice and the text are cut into the same pieces but for blanks and comments, and without the blanks
that the text has around operators, these pieces are all of it. -/
theorem copied_token_for_token {src : Source} {file : File} (hread : read src = .ok file)
    {e₀ e : Expr} (he₀ : e₀ ∈ file.exprs) (he : e ∈ e₀.parts)
    (hcalls : ∀ c ∈ e.parts, c.isCall = false) {x : Target.Expr} {ds : List Degradation}
    (hlower : e.lower src = ⟨.ok x, ds⟩) :
    ∃ s ps qs, src.slice? e.span = some s ∧ Piece.scan s.toList = .ok ps ∧
      Piece.scan x.text.toList = .ok qs ∧ meaningful qs = meaningful ps ∧
      x.text = x.spaced " " ∧ (x.spaced "").toList = (meaningful ps).flatMap Piece.text := by
  obtain ⟨us, hplaced, hmade⟩ := madeOf_of_read hread he₀ he
  obtain ⟨rfl, hf, -⟩ := hmade.lowered hcalls hlower
  obtain ⟨s, n, stretch, ps, hslice, hscan, hs, hm, hps⟩ := hplaced.slice? hmade.ne_nil
  obtain ⟨qs, hcut, hqs⟩ := hmade.exists_cut_meaningful hs hm hf
  have htext : Piece.scan e.tree.text.toList = .ok qs := by
    have hnil : Piece.scan [] = .ok [] := by rw [Piece.scan]
    have hall := hcut.scan (by simp [EndsOperand]) hnil
    simpa using hall
  refine ⟨s, ps, qs, ?_, hscan, htext, hqs.trans hps.symm, e.tree.text_eq_spaced, ?_⟩
  · rwa [hmade.span_eq]
  · rw [hcut.spaced_empty, hqs, hps]

/-- A text with comments in an expression, and with signs of one in a string. -/
def commented : Source :=
  ⟨"func f(a, b int) bool \x7b\n\treturn a /* 1 */ + // 2\n\t\t- -b*( 0x1e ) == `/* c */`\n\x7d\n"⟩

theorem copied_token_for_token_commented :
    ∃ (file : File) (e : Expr) (x : Target.Expr),
      read commented = .ok file ∧ e ∈ file.exprs ∧ (∀ c ∈ e.parts, c.isCall = false) ∧
      e.lower commented = ⟨.ok x, []⟩ ∧ x.text = "a + --b * (0x1e) == `/* c */`" ∧
      x.spaced "" = "a+--b*(0x1e)==`/* c */`" ∧
      ∃ s ps qs, commented.slice? e.span = some s ∧ Piece.scan s.toList = .ok ps ∧
        Piece.scan x.text.toList = .ok qs ∧ meaningful qs = meaningful ps ∧
        x.text = x.spaced " " ∧ (x.spaced "").toList = (meaningful ps).flatMap Piece.text := by
  let product : Expr :=
    .binary .mul (.unary .sub (.unary .sub (.name ⟨"b", ⟨54, 55⟩⟩) ⟨53, 55⟩) ⟨51, 55⟩)
      (.paren (.literal "0x1e" ⟨58, 62⟩) ⟨56, 64⟩) ⟨51, 64⟩
  let e : Expr :=
    .binary .equal (.binary .add (.name ⟨"a", ⟨32, 33⟩⟩) product ⟨32, 64⟩)
      (.literal "`/* c */`" ⟨68, 77⟩) ⟨32, 77⟩
  have hexprs : (read commented).toOption.map exprs = some [e] := by decide +kernel
  obtain ⟨file, hread, he⟩ := Option.map_eq_some_iff.1 hexprs
  have hread' := eq_ok_of_toOption hread
  have hmem : e ∈ file.exprs := by simp [he]
  have hcalls : ∀ c ∈ e.parts, c.isCall = false := by decide +kernel
  have hlower : e.lower commented = ⟨.ok e.tree, []⟩ := rfl
  exact ⟨file, e, e.tree, hread', hmem, hcalls, hlower, by decide +kernel, by decide +kernel,
    copied_token_for_token hread' hmem (Expr.self_mem_parts e) hcalls hlower⟩

end File

end Recast
