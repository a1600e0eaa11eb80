import Recast.Lexis.Piece
import Recast.Proofs.Numbers

/-!
# What a character begins

Which piece begins with a character is decided by the character, but for digits and points, which
may begin a number, and for `/`, which may begin a comment. `Piece.Begins` has one case for each
kind of piece, and `Piece.measure?_eq_some_iff` says that a piece is measured just in these cases.
What is proved of pieces below goes by them and does not open `Piece.measure?` again.
-/

namespace Recast

namespace Piece

/-- A quote, the kind of the literals that begin with it, and the measure of what comes after it. -/
inductive Quote : Char → LiteralKind → (List Char → Option Nat) → Prop
  | string : Quote '"' .string stringTail
  | raw : Quote '`' .string rawTail
  | rune : Quote '\'' .rune runeTail

variable {c : Char} {cs : List Char}

/-- A quote begins no blank, no name and no number. -/
theorem Quote.measure? {kind : LiteralKind} {tail : List Char → Option Nat}
    (h : Quote c kind tail) (cs : List Char) :
    measure? c cs = (tail cs).map fun n => (.literal kind, n) := by
  have hplain : isBlank c = false ∧ Letter.isInitial c = false ∧ c.isDigit = false ∧ c ≠ '.' := by
    cases h <;> decide
  obtain ⟨hblank, hinitial, hdigit, hpoint⟩ := hplain
  rw [Piece.measure?, if_neg (by simp [hblank]), if_neg (by simp [hinitial]),
    if_neg (by simp [Number.length_eq_zero hdigit hpoint])]
  cases h <;> rfl

/-- What is left are comments and marks. -/
theorem measure?_of_not_quote (hb : ¬ isBlank c = true) (hi : ¬ Letter.isInitial c = true)
    (hn : ¬ 0 < Number.length (c :: cs)) (hq : ∀ kind tail, ¬ Quote c kind tail) :
    measure? c cs =
      (if c == '/' then commentLength? cs else none).elim
        ((Mark.read? c cs).map fun (m, n) => (.mark m, n)) fun n => some (.comment, n) := by
  have hdouble : ¬ (c == '"') = true := by
    rw [beq_iff_eq]
    rintro rfl
    exact hq _ _ .string
  have hraw : ¬ (c == '`') = true := by
    rw [beq_iff_eq]
    rintro rfl
    exact hq _ _ .raw
  have hsingle : ¬ (c == '\'') = true := by
    rw [beq_iff_eq]
    rintro rfl
    exact hq _ _ .rune
  rw [measure?, if_neg hb, if_neg hi, if_neg hn, if_neg hdouble, if_neg hraw, if_neg hsingle]
  cases (if c == '/' then commentLength? cs else none) <;> rfl

/-- The kind of the piece that begins with a character, and how many of the characters after it
the piece takes. -/
inductive Begins (c : Char) (cs : List Char) : PieceKind → Nat → Prop
  | blank (hb : isBlank c = true) : Begins c cs .blank 0
  | word (hb : ¬ isBlank c = true) (hi : Letter.isInitial c = true) :
    Begins c cs .word (cs.takeWhile Letter.isMedial).length
  | number (hb : ¬ isBlank c = true) (hi : ¬ Letter.isInitial c = true)
    (hn : 0 < Number.length (c :: cs)) :
    Begins c cs (.literal .number) (Number.length (c :: cs) - 1)
  | quoted {kind : LiteralKind} {tail : List Char → Option Nat} {n : Nat}
    (hq : Quote c kind tail) (h : tail cs = some n) : Begins c cs (.literal kind) n
  | comment {n : Nat} (hc : c = '/') (h : commentLength? cs = some n) : Begins c cs .comment n
  | mark {m : Mark} {n : Nat} (hb : ¬ isBlank c = true) (hi : ¬ Letter.isInitial c = true)
    (hn : ¬ 0 < Number.length (c :: cs)) (hq : ∀ kind tail, ¬ Quote c kind tail)
    (hc : c = '/' → commentLength? cs = none) (h : Mark.read? c cs = some (m, n)) :
    Begins c cs (.mark m) n

theorem begins_of_measure? {kind : PieceKind} {n : Nat} (h : measure? c cs = some (kind, n)) :
    Begins c cs kind n := by
  by_cases hb : isBlank c = true
  · rw [measure?, if_pos hb] at h
    cases h
    exact .blank hb
  by_cases hi : Letter.isInitial c = true
  · rw [measure?, if_neg hb, if_pos hi] at h
    cases h
    exact .word hb hi
  by_cases hn : 0 < Number.length (c :: cs)
  · rw [measure?, if_neg hb, if_neg hi, if_pos hn] at h
    cases h
    exact .number hb hi hn
  by_cases hq : ∃ kind tail, Quote c kind tail
  · obtain ⟨k, tail, hq⟩ := hq
    rw [hq.measure?] at h
    obtain ⟨m, hm, he⟩ := Option.map_eq_some_iff.1 h
    cases he
    exact .quoted hq hm
  have hq : ∀ kind tail, ¬ Quote c kind tail := fun kind tail h => hq ⟨kind, tail, h⟩
  rw [measure?_of_not_quote hb hi hn hq] at h
  cases hm : if c == '/' then commentLength? cs else none with
  | none =>
    rw [hm] at h
    obtain ⟨⟨m, k⟩, hr, he⟩ := Option.map_eq_some_iff.1 h
    cases he
    refine .mark hb hi hn hq (fun hc => ?_) hr
    rwa [if_pos (beq_iff_eq.2 hc)] at hm
  | some m =>
    rw [hm] at h
    cases h
    split at hm
    · rename_i hc
      exact .comment (beq_iff_eq.1 hc) hm
    · cases hm

theorem Begins.measure? {kind : PieceKind} {n : Nat} (h : Begins c cs kind n) :
    measure? c cs = some (kind, n) := by
  cases h with
  | blank hb => rw [Piece.measure?, if_pos hb]
  | word hb hi => rw [Piece.measure?, if_neg hb, if_pos hi]
  | number hb hi hn => rw [Piece.measure?, if_neg hb, if_neg hi, if_pos hn]
  | quoted hq h =>
    rw [hq.measure?, h]
    rfl
  | comment hc h =>
    subst hc
    have hn : ¬ 0 < Number.length ('/' :: cs) := by
      rw [Number.length_eq_zero (by decide) (by decide)]
      exact Nat.lt_irrefl 0
    have hq : ∀ kind tail, ¬ Quote '/' kind tail := by
      rintro _ _ ⟨⟩
    rw [measure?_of_not_quote (by decide) (by decide) hn hq, if_pos (by decide), h]
    rfl
  | mark hb hi hn hq hc h =>
    have hnone : (if c == '/' then commentLength? cs else none) = none := by
      split
      · rename_i he
        exact hc (beq_iff_eq.1 he)
      · rfl
    rw [measure?_of_not_quote hb hi hn hq, hnone, h]
    rfl

/-- A piece is measured just if it is one of those that begin with the character. -/
theorem measure?_eq_some_iff {kind : PieceKind} {n : Nat} :
    measure? c cs = some (kind, n) ↔ Begins c cs kind n :=
  ⟨begins_of_measure?, Begins.measure?⟩

end Piece

end Recast
