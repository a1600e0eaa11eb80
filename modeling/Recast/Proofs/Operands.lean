import Recast.Proofs.Beginnings
import Recast.Proofs.Spread
import Mathlib.Data.List.TakeWhile

/-!
# Names and literals in a text

A name or a literal that was read from a source is read again, as the same piece, wherever its
characters stand before a blank, a closing bracket, a line break or the end of the text
(`Piece.Measured.stands`). So it may be printed into another text.
-/

namespace Recast

/-- What follows a name or a literal in a printed expression: nothing, a blank, a closing bracket or
the end of the line. -/
def EndsOperand (rest : List Char) : Prop := ∀ c ∈ rest.head?, c = ' ' ∨ c = ')' ∨ c = '\n'

theorem EndsOperand.not_isMedial {rest : List Char} (h : EndsOperand rest) :
    ∀ c ∈ rest.head?, Letter.isMedial c = false := by
  intro c hc
  rcases h c hc with rfl | rfl | rfl <;> decide +kernel

theorem EndsOperand.takeWhile_append {rest : List Char} (h : EndsOperand rest) (cs : List Char) :
    (cs ++ rest).takeWhile Letter.isMedial = cs.takeWhile Letter.isMedial := by
  have hrest : rest.takeWhile Letter.isMedial = [] := by
    cases rest with
    | nil => rfl
    | cons c rest => exact List.takeWhile_cons_of_neg (by simp [h.not_isMedial c rfl])
  induction cs with
  | nil => exact hrest
  | cons c cs ih => simp only [List.cons_append, List.takeWhile_cons, ih]

theorem EndsOperand.not_inImaginary {rest : List Char} (h : EndsOperand rest) :
    ∀ c ∈ rest.head?, Number.inImaginary c = false := by
  intro c hc
  rcases h c hc with rfl | rfl | rfl <;> decide

namespace Piece

/-- A piece that is read from its characters before anything that ends an operand. -/
def Stands (p : Piece) : Prop :=
  ∃ c cs, p.text = c :: cs ∧
    ∀ rest, EndsOperand rest → measure? c (cs ++ rest) = some (p.kind, cs.length)

/-! ## Quoted texts

A quoted text is read up to its end only. -/

/-- The digits that a text begins with are those of any text that begins with as many of its
characters. -/
theorem startsHex_take {count n : Nat} {cs : List Char} (h : startsHex count cs = true)
    (hn : count ≤ n) (rest : List Char) : startsHex count (cs.take n ++ rest) = true := by
  simp only [startsHex, Bool.and_eq_true, decide_eq_true_eq] at h ⊢
  have htake : (cs.take n ++ rest).take count = cs.take count := by
    rw [List.take_append_of_le_length (by simp; omega), List.take_take]
    congr 1
    omega
  rw [htake]
  exact ⟨by simp; omega, h.2⟩

/-- A string takes a digit as it is. -/
theorem stringTail_of_isHexDigit {c : Char} (h : Number.isHexDigit c = true) (cs : List Char) :
    stringTail (c :: cs) = (stringTail cs).map (· + 1) := by
  rw [stringTail]
  all_goals
    intros
    subst c
    cases h

/-- So it takes all the digits that it begins with. -/
theorem le_of_startsHex {count n : Nat} {cs : List Char} (hx : startsHex count cs = true)
    (h : stringTail cs = some n) : count ≤ n := by
  induction count generalizing cs n with
  | zero => exact Nat.zero_le n
  | succ count ih =>
    cases cs with
    | nil => cases h
    | cons c cs =>
      simp only [startsHex, List.length_cons, List.take_succ_cons, List.all_cons, Bool.and_eq_true,
        decide_eq_true_eq] at hx
      rw [stringTail_of_isHexDigit hx.2.1] at h
      obtain ⟨m, hm, rfl⟩ := Option.map_eq_some_iff.1 h
      refine Nat.succ_le_succ (ih ?_ hm)
      simp only [startsHex, Bool.and_eq_true, decide_eq_true_eq]
      exact ⟨Nat.le_of_succ_le_succ hx.1, hx.2.2⟩

/-- An escape is one in any text that goes on with what the string takes. -/
theorem isEscaped_take {c : Char} {cs : List Char} {n : Nat} (hc : isEscaped c cs = true)
    (h : stringTail cs = some n) (rest : List Char) : isEscaped c (cs.take n ++ rest) = true := by
  have hdigits {count : Nat} (hx : startsHex count cs = true) :
      startsHex count (cs.take n ++ rest) = true :=
    startsHex_take hx (le_of_startsHex hx h) rest
  unfold isEscaped at hc ⊢
  split_ifs at hc ⊢
  · exact hdigits hc
  · exact hdigits hc
  · exact hdigits hc
  · exact hc

theorem stringTail_take {cs : List Char} {n : Nat} (h : stringTail cs = some n) :
    n ≤ cs.length ∧ ∀ rest, stringTail (cs.take n ++ rest) = some n := by
  fun_induction stringTail cs generalizing n with
  | case1 | case2 | case3 => cases h
  | case4 cs =>
    cases h
    exact ⟨by simp, fun rest => by simp [stringTail]⟩
  | case5 c cs hc ih =>
    obtain ⟨m, hm, rfl⟩ := Option.map_eq_some_iff.1 h
    obtain ⟨hle, htake⟩ := ih hm
    refine ⟨by simp only [List.length_cons]; omega, fun rest => ?_⟩
    rw [List.take_succ_cons, List.take_succ_cons, List.cons_append, List.cons_append, stringTail,
      if_pos (isEscaped_take hc hm rest), htake]
    rfl
  | case6 => cases h
  | case7 c cs hn hz hq hb ih =>
    obtain ⟨m, hm, rfl⟩ := Option.map_eq_some_iff.1 h
    obtain ⟨hle, htake⟩ := ih hm
    refine ⟨by simp only [List.length_cons]; omega, fun rest => ?_⟩
    -- The last character before the end of a text would be no part of a string.
    have hc : c ≠ '\\' := by
      rintro rfl
      cases cs with
      | nil => cases hm
      | cons d ds => exact hb d ds rfl rfl
    rw [List.take_succ_cons, List.cons_append, stringTail, htake]
    · rfl
    · exact hn
    · exact hz
    · exact hq
    · exact fun d ds he => absurd he hc

theorem rawTail_take {cs : List Char} {n : Nat} (h : rawTail cs = some n) :
    n ≤ cs.length ∧ ∀ rest, rawTail (cs.take n ++ rest) = some n := by
  fun_induction rawTail cs generalizing n with
  | case1 | case2 => cases h
  | case3 cs =>
    cases h
    exact ⟨by simp, fun rest => by simp [rawTail]⟩
  | case4 c cs hz hq ih =>
    obtain ⟨m, hm, rfl⟩ := Option.map_eq_some_iff.1 h
    obtain ⟨hle, htake⟩ := ih hm
    refine ⟨by simp only [List.length_cons]; omega, fun rest => ?_⟩
    rw [List.take_succ_cons, List.cons_append, rawTail, htake]
    · rfl
    · exact hz
    · exact hq

theorem hex_take {count : Nat} {cs : List Char} {n : Nat} (h : runeEscape.hex count cs = some n)
    (rest : List Char) : runeEscape.hex count (cs.take n ++ rest) = some n := by
  unfold runeEscape.hex at h ⊢
  split at h
  · rename_i hc
    cases h
    rw [if_pos (startsHex_take hc (Nat.le_succ count) rest)]
  · cases h

/-- An escape is read from its characters, if the closing quote is there too. -/
theorem runeEscape_take {cs : List Char} {n : Nat} (h : runeEscape cs = some n)
    (hn : n < cs.length) (rest : List Char) :
    runeEscape (cs.take (n + 1) ++ rest) = some n := by
  fun_cases runeEscape cs with
  | case1 cs => exact hex_take h rest
  | case2 cs => exact hex_take h rest
  | case3 cs => exact hex_take h rest
  | case4 c cs hx hu hU hc =>
    rw [runeEscape, if_pos hc] at h
    · cases h
      rw [List.take_succ_cons, List.cons_append, runeEscape, if_pos hc]
      · exact hx
      · exact hu
      · exact hU
    · exact hx
    · exact hu
    · exact hU
  | case5 c cs hx hu hU hc ho =>
    rw [runeEscape, if_neg hc, if_pos ho] at h
    · cases h
      simp only [List.length_cons] at hn
      have htake : (cs.take 3 ++ rest).take 2 = cs.take 2 := by
        rw [List.take_append_of_le_length (by simp; omega), List.take_take]
        rfl
      simp only [Bool.and_eq_true, decide_eq_true_eq] at ho
      rw [List.take_succ_cons, List.cons_append, runeEscape, if_neg hc, htake, if_pos]
      · simp only [Bool.and_eq_true, decide_eq_true_eq]
        exact ⟨ho.1, by simp; omega⟩
      · exact hx
      · exact hu
      · exact hU
    · exact hx
    · exact hu
    · exact hU
  | case6 c cs hx hu hU hc ho =>
    rw [runeEscape, if_neg hc, if_neg ho] at h
    · cases h
    · exact hx
    · exact hu
    · exact hU
  | case7 => cases h

/-- Before the closing quote stands an escape or one character. -/
theorem runeTail_cases {cs : List Char} {n : Nat} (h : runeTail cs = some n) :
    (∃ es count, cs = '\\' :: es ∧ n = count + 2 ∧ runeEscape es = some count ∧
        es[count]? = some '\'') ∨
      ∃ c es, cs = c :: '\'' :: es ∧ n = 2 ∧ c ≠ '\\' ∧ c ≠ '\'' ∧ c ≠ '\x00' := by
  unfold runeTail at h
  split at h
  · rename_i es
    obtain ⟨count, hcount, h⟩ := Option.bind_eq_some_iff.1 h
    obtain ⟨u, hguard, h⟩ := Option.bind_eq_some_iff.1 h
    cases h
    have hquote : es[count]? = some '\'' := by
      by_contra hne
      simp [guard, hne] at hguard
    exact .inl ⟨es, count, rfl, rfl, hcount, hquote⟩
  · cases h
  · cases h
  · rename_i c es hb hq hz
    cases h
    exact .inr ⟨c, es, rfl, rfl, fun he => absurd he hb, hq, hz⟩
  · cases h

theorem runeTail_take {cs : List Char} {n : Nat} (h : runeTail cs = some n) :
    n ≤ cs.length ∧ ∀ rest, runeTail (cs.take n ++ rest) = some n := by
  rcases runeTail_cases h with
    ⟨es, count, rfl, rfl, hcount, hquote⟩ | ⟨c, es, rfl, rfl, hb, hq, hz⟩
  · have hlt : count < es.length := (List.getElem?_eq_some_iff.1 hquote).1
    refine ⟨by simp only [List.length_cons]; omega, fun rest => ?_⟩
    have hquote' : (es.take (count + 1) ++ rest)[count]? = some '\'' := by
      rw [List.getElem?_append_left (by simp; omega), List.getElem?_take_of_lt (by omega), hquote]
    rw [List.take_succ_cons, List.cons_append, runeTail, runeEscape_take hcount hlt]
    simp [hquote', guard]
  · refine ⟨by simp, fun rest => ?_⟩
    rw [List.take_succ_cons, List.take_succ_cons, List.take_zero, List.cons_append,
      List.cons_append, List.nil_append, runeTail]
    · exact hb
    · exact hq
    · exact hz

/-- What comes after a quote is measured by the characters that it takes. -/
theorem Quote.take {c : Char} {kind : LiteralKind} {tail : List Char → Option Nat}
    (h : Quote c kind tail) {cs : List Char} {n : Nat} (hn : tail cs = some n) :
    n ≤ cs.length ∧ ∀ rest, tail (cs.take n ++ rest) = some n := by
  cases h with
  | string => exact stringTail_take hn
  | raw => exact rawTail_take hn
  | rune => exact runeTail_take hn

/-! ## Pieces that are operands -/

/-- A name or a literal stands as it was read. -/
theorem Measured.stands {p : Piece} (h : p.Measured)
    (hk : p.kind = .word ∨ ∃ kind, p.kind = .literal kind) : p.Stands := by
  obtain ⟨kind, text⟩ := p
  obtain ⟨c, cs, n, hm, htext⟩ := h
  dsimp only at hk hm htext
  suffices hs : n ≤ cs.length ∧ ∀ rest, EndsOperand rest →
      measure? c (cs.take n ++ rest) = some (kind, n) by
    refine ⟨c, cs.take n, htext, fun rest hrest => ?_⟩
    rw [hs.2 rest hrest, List.length_take, Nat.min_eq_left hs.1]
  cases begins_of_measure? hm with
  | blank | comment | mark => rcases hk with hk | ⟨k, hk⟩ <;> cases hk
  | word hb hi =>
    have htake : cs.take (cs.takeWhile Letter.isMedial).length = cs.takeWhile Letter.isMedial :=
      (List.prefix_iff_eq_take.1 (List.takeWhile_prefix _)).symm
    refine ⟨(List.takeWhile_prefix _).length_le, fun rest hrest => ?_⟩
    rw [htake, (Begins.word hb hi).measure?, hrest.takeWhile_append, List.takeWhile_idem]
  | number hb hi hn =>
    have hle := Number.length_le (c :: cs)
    rw [List.length_cons] at hle
    have hcut : c :: cs = (c :: cs.take (Number.length (c :: cs) - 1))
        ++ cs.drop (Number.length (c :: cs) - 1) := by
      rw [List.cons_append, List.take_append_drop]
    have hlen : (c :: cs.take (Number.length (c :: cs) - 1)).length = Number.length (c :: cs) := by
      rw [List.length_cons, List.length_take]
      omega
    refine ⟨by omega, fun rest hrest => ?_⟩
    have hsame := Number.length_append (by rw [← hcut, hlen]) hrest.not_inImaginary
    rw [hlen, List.cons_append] at hsame
    rw [(Begins.number hb hi (by omega)).measure?, hsame]
  | quoted hq h =>
    obtain ⟨hle, htake⟩ := hq.take h
    exact ⟨hle, fun rest _ => (Begins.quoted hq (htake rest)).measure?⟩

end Piece

end Recast
