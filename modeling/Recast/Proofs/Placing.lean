import Recast.Proofs.Spread

/-!
# Placing a source text

The forest of a source text is placed in it (`Forest.ofLexemes_placed`). The lexemes of pieces are
spread over them (`Forest.ofPieces_spread`), and matching brackets keeps this: brackets that are
still open and lexemes that are still to come are leaves of one forest with the trees that are done,
and a pair of brackets turns a stretch of it into a group (`Forest.Spread.close`).
-/

namespace Recast

/-! ## Lexemes -/

namespace Lexeme

variable {src : Source}

theorem boundary_firstOffset {ps : List Piece} {before : List Char}
    (hs : src.chars = before ++ ps.flatMap Piece.text) :
    src.Boundary (firstOffset (utf8Length before) ps) := by
  induction ps generalizing before with
  | nil => exact ⟨before, [], by simpa using hs, rfl⟩
  | cons p ps ih =>
    rw [firstOffset]
    split
    · rw [← utf8Length_append]
      exact ih (by rw [hs, List.flatMap_cons, List.append_assoc])
    · exact ⟨before, _, hs, rfl⟩

end Lexeme

namespace Forest

open Piece (width)

variable {n : Nat} {ps : List Piece} {us : Forest}

/-- The lexemes of pieces, brackets among them, are leaves over the pieces. -/
theorem ofPieces_spread (n : Nat) (gap : Gap) (ps : List Piece) :
    Spread n ps ((Lexeme.ofPieces n gap ps).map Tree.leaf) := by
  induction ps generalizing n gap with
  | nil => exact .nil
  | cons p ps ih =>
    have hwidth : n + utf8Length p.text = n + width [p] := by simp
    rw [Lexeme.ofPieces, hwidth]
    split
    · rename_i kind hk
      exact .leaf hk (ih _ _)
    · rename_i hk
      exact .skip hk (ih _ _)

/-- No tree stands in the blanks at the head of a text. -/
theorem Spread.firstOffset_le (h : Spread n ps us) : ∀ t ∈ us, firstOffset n ps ≤ t.span.start := by
  induction h with
  | nil => exact List.forall_mem_nil _
  | @skip n p ps us hk h ih =>
    have hwidth : n + utf8Length p.text = n + width [p] := by simp
    rw [firstOffset]
    split
    · rwa [hwidth]
    · intro t ht
      exact ((Spread.skip hk h).bounds t ht).1
  | @leaf n p ps kind gap us hk h =>
    have hkind : p.kind ≠ .blank := by
      intro hb
      rw [Lexeme.kindOf?, hb] at hk
      cases hk
    rw [firstOffset, if_neg hkind]
    intro t ht
    exact ((Spread.leaf hk h).bounds t ht).1
  | @group n l r inside ps b gap closing inner us hl hr hi h =>
    have hkind : l.kind ≠ .blank := by
      intro hb
      rw [Lexeme.kindOf?, hb] at hl
      cases hl
    rw [firstOffset, if_neg hkind]
    intro t ht
    exact ((Spread.group hl hr hi h).bounds t ht).1

/-! ## Brackets -/

/-- An opening bracket and its partner, with what stands between them, are a group. -/
theorem Spread.close {before inner after : Forest} {l r : Lexeme} {b : Bracket}
    (hl : l.kind = .mark (.opening b)) (hr : r.kind = .mark (.closing b))
    (h : Spread n ps (before ++ (.leaf l :: (inner ++ .leaf r :: after)))) :
    Spread n ps (before ++ .group b l.gap inner r.gap (l.span.through r.span) :: after) := by
  obtain ⟨ps₁, ps₂, rfl, hbefore, h⟩ := h.split
  refine hbefore.append ?_
  obtain ⟨blanks, p, rest, rfl, hblanks, hp, hlspan, h⟩ := h.of_leaf
  obtain ⟨inside, rest, rfl, hinner, h⟩ := h.split
  obtain ⟨gaps, q, rest, rfl, hgaps, hq, hrspan, hafter⟩ := h.of_leaf
  -- what stands before the closing bracket is inside the group
  have hinside : Spread (n + width ps₁ + width blanks + width [p]) (inside ++ gaps) inner := by
    have := hinner.append (Spread.nil_iff.2 hgaps)
    rwa [List.append_nil] at this
  have hspan : l.span.through r.span = ⟨n + width ps₁ + width blanks,
      n + width ps₁ + width blanks + width (p :: ((inside ++ gaps) ++ [q]))⟩ := by
    rw [hlspan, hrspan]
    simp [Span.through, Nat.add_assoc]
  have hgroup : Spread (n + width ps₁ + width blanks) (p :: ((inside ++ gaps) ++ q :: rest))
      (.group b l.gap inner r.gap (l.span.through r.span) :: after) := by
    rw [hspan]
    refine .group (by rw [hp, hl]) (by rw [hq, hr]) hinside (hafter.at_eq ?_)
    simp [Nat.add_assoc]
  have hall := (Spread.nil_iff.2 hblanks).append hgroup
  simpa using hall

/-- The trees that are done, the brackets that are open and the lexemes that are still to come. -/
def pending (opened : List Open) (done : List Tree) (ls : List Lexeme) : Forest :=
  opened.reverse.flatMap (fun o => o.before.reverse ++ [.leaf o.lexeme]) ++
    (done.reverse ++ ls.map Tree.leaf)

theorem build_spread {opened : List Open} {done : List Tree} {ls : List Lexeme} {ts : Forest}
    (hs : Spread n ps (pending opened done ls))
    (ho : ∀ o ∈ opened, o.lexeme.kind = .mark (.opening o.bracket))
    (h : build opened done ls = .ok ts) : Spread n ps ts := by
  induction ls generalizing opened done with
  | nil =>
    cases opened with
    | nil =>
      cases h
      simpa [pending] using hs
    | cons o os => cases h
  | cons l ls ih =>
    rw [build] at h
    split at h
    · rename_i b hk
      have he : pending (⟨b, l, done⟩ :: opened) [] ls = pending opened done (l :: ls) := by
        simp [pending]
      exact ih (he ▸ hs) (List.forall_mem_cons.2 ⟨hk, ho⟩) h
    · rename_i b hk
      split at h
      · cases h
      · rename_i o os
        obtain ⟨hopening, hos⟩ := List.forall_mem_cons.1 ho
        split at h
        · rename_i hb
          have he : pending (o :: os) done (l :: ls) =
              (os.reverse.flatMap (fun o => o.before.reverse ++ [.leaf o.lexeme])
                ++ o.before.reverse)
                ++ (.leaf o.lexeme :: (done.reverse ++ .leaf l :: ls.map Tree.leaf)) := by
            simp [pending]
          have he' : pending os (.group b o.lexeme.gap done.reverse l.gap
              (o.lexeme.span.through l.span) :: o.before) ls =
              (os.reverse.flatMap (fun o => o.before.reverse ++ [.leaf o.lexeme])
                ++ o.before.reverse)
                ++ .group b o.lexeme.gap done.reverse l.gap (o.lexeme.span.through l.span)
                  :: ls.map Tree.leaf := by
            simp [pending]
          rw [he] at hs
          exact ih (he' ▸ hs.close (hb ▸ hopening) hk) hos h
        · cases h
    · have he : pending opened (.leaf l :: done) ls = pending opened done (l :: ls) := by
        simp [pending]
      exact ih (he ▸ hs) ho h

/-- The forest of a text stands over its pieces. -/
theorem ofLexemes_spread {ts : Forest} (h : ofLexemes (Lexeme.ofPieces 0 .none ps) = .ok ts) :
    Spread 0 ps ts := by
  have hpending : Spread 0 ps (pending [] [] (Lexeme.ofPieces 0 .none ps)) :=
    ofPieces_spread 0 .none ps
  exact build_spread hpending (List.forall_mem_nil _) h

/-- So it is placed in the text. -/
theorem ofLexemes_placed {src : Source} {ts : Forest} (hps : Piece.ofChars src.chars = .ok ps)
    (h : ofLexemes (Lexeme.ofPieces 0 .none ps) = .ok ts) : Placed src ts :=
  ⟨[], ps, [], by simpa using hps, ofLexemes_spread h⟩

end Forest

end Recast
