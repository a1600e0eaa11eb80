import Recast.Proofs.Cuts
import Recast.Proofs.LineTables
import Mathlib.Data.List.DropRight

/-!
# Lines and columns

The line and the column that `Source.position` finds for a boundary are those that one counts on the
text before it, in 32 bits (`Source.position_boundary`): the newlines, and the characters since the
last of them. So later boundaries have later positions, and what is past the end has the position of
the end. The one exception is the end of a text that is as long as can be and on a single line, or
all of newlines: there a number goes around to zero (`Source.position_counted_iff`).
-/

namespace Recast

/-! ## Newlines as bytes -/

open LineTable (newline)

/-- The bytes of characters, one after the other. -/
def utf8Bytes (cs : List Char) : List UInt8 := cs.flatMap String.utf8EncodeChar

@[simp] theorem utf8Bytes_append (as bs : List Char) :
    utf8Bytes (as ++ bs) = utf8Bytes as ++ utf8Bytes bs :=
  List.flatMap_append

@[simp] theorem length_utf8Bytes (cs : List Char) : (utf8Bytes cs).length = utf8Length cs := by
  induction cs with
  | nil => rfl
  | cons c cs ih =>
    rw [utf8Bytes, List.flatMap_cons, List.length_append, String.length_utf8EncodeChar,
      utf8Length_cons, ← ih, utf8Bytes]

theorem newline_eq_ofNat_iff {n : Nat} (hn : n < 256) : UInt8.ofNat n = newline ↔ n = 10 := by
  have hten : newline.toNat = 10 := rfl
  rw [← UInt8.toNat_inj, UInt8.toNat_ofNat', hten]
  omega

/-- The bytes of a character of several bytes are no newlines: each has its first bit set. -/
theorem newline_not_mem_utf8EncodeChar {c : Char} (h : 127 < c.val.toNat) :
    newline ∉ String.utf8EncodeChar c := by
  have hbyte {n : Nat} (hlow : 128 ≤ n) (hhigh : n < 256) : newline ≠ UInt8.ofNat n := by
    intro heq
    have hten := (newline_eq_ofNat_iff hhigh).1 heq.symm
    omega
  rw [String.utf8EncodeChar, if_neg (by omega)]
  split
  · simp only [List.mem_cons, List.not_mem_nil, or_false, not_or]
    exact ⟨hbyte (by omega) (by omega), hbyte (by omega) (by omega)⟩
  · split
    · simp only [List.mem_cons, List.not_mem_nil, or_false, not_or]
      exact ⟨hbyte (by omega) (by omega), hbyte (by omega) (by omega), hbyte (by omega) (by omega)⟩
    · simp only [List.mem_cons, List.not_mem_nil, or_false, not_or]
      exact ⟨hbyte (by omega) (by omega), hbyte (by omega) (by omega), hbyte (by omega) (by omega),
        hbyte (by omega) (by omega)⟩

/-- Of all characters only a newline has the byte of one. -/
theorem count_utf8EncodeChar (c : Char) :
    (String.utf8EncodeChar c).count newline = if c = '\n' then 1 else 0 := by
  have hten : c = '\n' ↔ c.val.toNat = 10 := by
    rw [← Char.val_inj, ← UInt32.toNat_inj]
    rfl
  by_cases hone : c.val.toNat ≤ 127
  · rw [String.utf8EncodeChar, if_pos hone, List.count_singleton]
    simp only [beq_iff_eq, newline_eq_ofNat_iff (show c.val.toNat < 256 by omega), hten]
  · rw [List.count_eq_zero.2 (newline_not_mem_utf8EncodeChar (by omega)),
      if_neg (fun hc => hone (by rw [hten.1 hc]; decide))]

theorem count_utf8Bytes (cs : List Char) : (utf8Bytes cs).count newline = cs.count '\n' := by
  induction cs with
  | nil => rfl
  | cons c cs ih =>
    rw [utf8Bytes, List.flatMap_cons, List.count_append, count_utf8EncodeChar, ← utf8Bytes, ih,
      List.count_cons, Nat.add_comm]
    simp

namespace Source

theorem bytes_eq (src : Source) : src.bytes = utf8Bytes src.chars := by
  rw [bytes, chars, ← String.utf8Encode_toList, List.utf8Encode, List.data_toByteArray, utf8Bytes]

/-! ## The position of a boundary -/

variable {src : Source}

/-- An offset stands in a line and at a column, counted on the text before it: newlines, and the
characters after the last newline, or all characters if there is none. -/
def StandsAt (src : Source) (offset line column : Nat) : Prop :=
  ∃ before after, src.chars = before ++ after ∧ utf8Length before = offset ∧
    line = 1 + before.count '\n' ∧ column = 1 + (before.rtakeWhile (· ≠ '\n')).length

/-- A number counted from one goes around to zero at the limit. -/
theorem toNat_ordinal {n : Nat} (h : n < Span.limit) :
    (ordinal n).toNat = (1 + n) % Span.limit := by
  have hn : (UInt32.ofNat n).toNat = n := UInt32.toNat_ofNat_of_lt' h
  rw [ordinal, if_pos h, UInt32.toNat_add, hn, Nat.add_comm]
  rfl

/-- The index is found again, since the number before zero is the largest. -/
theorem toNat_ordinal_sub_one {n : Nat} (h : n < Span.limit) : (ordinal n - 1).toNat = n := by
  rw [ordinal, if_pos h, UInt32.add_sub_cancel]
  exact UInt32.toNat_ofNat_of_lt' h

theorem length_le_utf8Length (cs : List Char) : cs.length ≤ utf8Length cs := by
  induction cs with
  | nil => exact Nat.le_refl _
  | cons c cs ih =>
    have hpos := c.utf8Size_pos
    rw [List.length_cons, utf8Length_cons]
    omega

/-- A text is its last line, which has no newline, after nothing or after a newline. -/
theorem exists_last_line (before : List Char) :
    ∃ upto, before = upto ++ before.rtakeWhile (· ≠ '\n') ∧
      upto.count '\n' = before.count '\n' ∧
      (utf8Bytes upto = [] ∨ ∃ bytes, utf8Bytes upto = bytes ++ [newline]) := by
  have hsplit := List.rdropWhile_append_rtakeWhile (p := (· ≠ '\n')) (l := before)
  refine ⟨before.rdropWhile (· ≠ '\n'), hsplit.symm, ?_, ?_⟩
  · have hnone : (before.rtakeWhile (· ≠ '\n')).count '\n' = 0 :=
      List.count_eq_zero.2 fun hm => by simpa using List.mem_rtakeWhile_imp hm
    conv_rhs => rw [← hsplit]
    rw [List.count_append, hnone, Nat.add_zero]
  · by_cases hnil : before.rdropWhile (· ≠ '\n') = []
    · exact .inl (by rw [hnil]; rfl)
    · refine .inr ⟨utf8Bytes (before.rdropWhile (· ≠ '\n')).dropLast, ?_⟩
      have hlast : (before.rdropWhile (· ≠ '\n')).getLast hnil = '\n' := by
        simpa using List.rdropWhile_last_not (· ≠ '\n') before hnil
      conv_lhs => rw [← List.dropLast_append_getLast hnil, hlast, utf8Bytes_append]
      rfl

/-- The position of a boundary is counted on the text before it, in 32 bits. -/
theorem position_boundary (hsize : src.size < Span.limit) {before after : List Char}
    (hs : src.chars = before ++ after) :
    src.position (utf8Length before)
      = ((1 + before.count '\n') % Span.limit,
        (1 + (before.rtakeWhile (· ≠ '\n')).length) % Span.limit) := by
  obtain ⟨upto, hsplit, hcount, hupto⟩ := exists_last_line before
  have hle : utf8Length before ≤ src.size := Boundary.le_size ⟨before, after, hs, rfl⟩
  have hlength := length_le_utf8Length before
  have hbytes : src.bytes.length < Span.limit := by
    rwa [bytes_eq, length_utf8Bytes, ← size_eq]
  have hindex : src.lines.index (utf8Length before) = before.count '\n' := by
    have hfront : src.bytes = utf8Bytes before ++ utf8Bytes after := by
      rw [bytes_eq, hs, utf8Bytes_append]
    rw [lines, hfront, ← length_utf8Bytes, LineTable.index_build (by rwa [← hfront]),
      count_utf8Bytes]
  have hstart : src.lines.start (before.count '\n') = utf8Length upto := by
    have hfront : src.bytes = utf8Bytes upto
        ++ utf8Bytes (before.rtakeWhile (· ≠ '\n') ++ after) := by
      rw [bytes_eq, hs, ← utf8Bytes_append, ← List.append_assoc, ← hsplit]
    rw [lines, hfront, ← hcount, ← count_utf8Bytes,
      LineTable.start_build (by rwa [← hfront]) hupto, length_utf8Bytes]
  have hslice : src.slice? ⟨utf8Length upto, min (utf8Length before) src.size⟩
      = some (String.ofList (before.rtakeWhile (· ≠ '\n'))) := by
    refine slice?_eq_some_iff.2 ⟨upto, after, ?_, rfl, ?_⟩
    · rw [String.toList_ofList, ← hsplit, hs]
    · rw [String.toList_ofList, Nat.min_eq_left hle, ← utf8Length_append, ← hsplit]
  have hline : before.count '\n' < Span.limit := by
    have hle := before.count_le_length (a := '\n')
    omega
  have hcolumn : (before.rtakeWhile (· ≠ '\n')).length < Span.limit := by
    have hle := (List.rtakeWhile_suffix (· ≠ '\n') before).length_le
    omega
  rw [position, hindex, toNat_ordinal_sub_one hline, hstart, hslice]
  dsimp only
  rw [String.length_ofList, toNat_ordinal hline, toNat_ordinal hcolumn]

/-! ## Where the numbers do not suffice -/

/-- A text of as many characters as there are offsets, which are newlines, or of which none is. At
its end as many lines end, or as many characters stand in the line, as there are numbers of
32 bits besides zero. -/
structure Brimful (src : Source) : Prop where
  length_eq : src.chars.length + 1 = Span.limit
  uniform : (∀ c ∈ src.chars, c = '\n') ∨ '\n' ∉ src.chars

theorem rtakeWhile_eq_self {before : List Char} (h : '\n' ∉ before) :
    before.rtakeWhile (· ≠ '\n') = before :=
  List.rtakeWhile_eq_self_iff.2 fun _ hc => decide_eq_true fun he => h (he ▸ hc)

/-- Nothing follows what takes all bytes. -/
theorem utf8Length_eq_size_iff {before after : List Char} (hs : src.chars = before ++ after) :
    utf8Length before = src.size ↔ after = [] := by
  rw [size_eq, hs, utf8Length_append]
  constructor
  · intro h
    have hle := length_le_utf8Length after
    exact List.length_eq_zero_iff.1 (by omega)
  · rintro rfl
    rfl

/-- The numbers that are counted at a boundary fit, except at the end of a brimful text. -/
theorem fits_iff (hsize : src.size < Span.limit) {before after : List Char}
    (hs : src.chars = before ++ after) :
    1 + before.count '\n' < Span.limit ∧
        1 + (before.rtakeWhile (· ≠ '\n')).length < Span.limit ↔
      ¬ (src.Brimful ∧ utf8Length before = src.size) := by
  have hcount := before.count_le_length (a := '\n')
  have hsuffix := List.rtakeWhile_suffix (· ≠ '\n') before
  rw [utf8Length_eq_size_iff hs]
  constructor
  · intro h hbrim
    obtain ⟨hline, hcolumn⟩ := h
    obtain ⟨⟨hlength, huniform⟩, rfl⟩ := hbrim
    rw [hs, List.append_nil] at hlength huniform
    rcases huniform with hall | hnone
    · have heq : before.count '\n' = before.length :=
        List.count_eq_length.2 fun c hc => (hall c hc).symm
      omega
    · rw [rtakeWhile_eq_self hnone] at hcolumn
      omega
  · intro hbrim
    -- so many characters leave no room for others
    have hfull (hlength : before.length + 1 = Span.limit) : after = [] := by
      have hbefore := length_le_utf8Length before
      have hafter := length_le_utf8Length after
      rw [size_eq, hs, utf8Length_append] at hsize
      exact List.length_eq_zero_iff.1 (by omega)
    have hle : before.length < Span.limit := by
      have hbefore := length_le_utf8Length before
      rw [size_eq, hs, utf8Length_append] at hsize
      omega
    constructor
    · refine Nat.lt_of_not_le fun hlimit => hbrim ?_
      have hafter := hfull (by omega)
      rw [hafter, List.append_nil] at hs
      have heq : before.count '\n' = before.length := by omega
      exact ⟨⟨by rw [hs]; omega, .inl fun c hc =>
        (List.count_eq_length.1 heq c (hs ▸ hc)).symm⟩, hafter⟩
    · refine Nat.lt_of_not_le fun hlimit => hbrim ?_
      have hshort := hsuffix.length_le
      have hafter := hfull (by omega)
      rw [hafter, List.append_nil] at hs
      have hself := hsuffix.eq_of_length (by omega)
      refine ⟨⟨by rw [hs]; omega, .inr fun hmem => ?_⟩, hafter⟩
      rw [hs, ← hself] at hmem
      simpa using List.mem_rtakeWhile_imp hmem

/-- The end of a brimful text has a number that is zero. -/
theorem position_of_brimful (hsize : src.size < Span.limit) (h : src.Brimful) :
    src.position src.size = (1, 0) ∨ src.position src.size = (0, 1) := by
  have hlength := h.length_eq
  rw [src.size_eq, position_boundary hsize (src.chars.append_nil).symm]
  rcases h.uniform with hall | hnone
  · right
    have hcount : src.chars.count '\n' = src.chars.length :=
      List.count_eq_length.2 fun c hc => (hall c hc).symm
    have hnil : src.chars.rtakeWhile (· ≠ '\n') = [] := by
      refine List.eq_nil_iff_forall_not_mem.2 fun c hc => ?_
      have hmem := (List.rtakeWhile_suffix (· ≠ '\n') src.chars).subset hc
      simpa [hall c hmem] using List.mem_rtakeWhile_imp hc
    rw [hcount, hnil, Nat.add_comm, hlength]
    rfl
  · left
    rw [rtakeWhile_eq_self hnone, List.count_eq_zero.2 hnone, Nat.add_comm 1 src.chars.length,
      hlength]
    rfl

/-- Everywhere else the position is what is counted. -/
theorem position_boundary_of_fits (hsize : src.size < Span.limit) {before after : List Char}
    (hs : src.chars = before ++ after)
    (hfits : ¬ (src.Brimful ∧ utf8Length before = src.size)) :
    src.position (utf8Length before)
      = (1 + before.count '\n', 1 + (before.rtakeWhile (· ≠ '\n')).length) := by
  obtain ⟨hline, hcolumn⟩ := (fits_iff hsize hs).2 hfits
  rw [position_boundary hsize hs, Nat.mod_eq_of_lt hline, Nat.mod_eq_of_lt hcolumn]

theorem position_standsAt (hsize : src.size < Span.limit) {n : Nat} (h : src.Boundary n)
    (hlt : n < src.size) : src.StandsAt n (src.position n).1 (src.position n).2 := by
  obtain ⟨before, after, hs, rfl⟩ := h
  rw [position_boundary_of_fits hsize hs fun h => Nat.ne_of_lt hlt h.2]
  exact ⟨before, after, hs, rfl, rfl, rfl⟩

/-! ## Positions in order -/

/-- A later boundary is in a later line, or further on in the same line. -/
theorem position_lt (hsize : src.size < Span.limit) {m n : Nat} (hm : src.Boundary m)
    (hn : src.Boundary n) (hlt : m < n) (hfits : ¬ (src.Brimful ∧ n = src.size)) :
    Prod.Lex (· < ·) (· < ·) (src.position m) (src.position n) := by
  have hend := Nat.lt_of_lt_of_le hlt hn.le_size
  obtain ⟨before, rest, hs, rfl⟩ := hm
  obtain ⟨front, after, hf, rfl⟩ := hn
  obtain ⟨mid, rfl⟩ := isPrefix_of_utf8Length_le (hs.symm.trans hf) (Nat.le_of_lt hlt)
  rw [position_boundary_of_fits hsize hs fun h => Nat.ne_of_lt hend h.2,
    position_boundary_of_fits hsize hf hfits, List.count_append]
  by_cases hnew : '\n' ∈ mid
  · have hpos := List.count_pos_iff.2 hnew
    exact .left _ _ (by omega)
  · have hnil : mid ≠ [] := by
      rintro rfl
      rw [List.append_nil] at hlt
      exact Nat.lt_irrefl _ hlt
    have hpos := List.length_pos_iff.2 hnil
    have hline : (before ++ mid).rtakeWhile (· ≠ '\n')
        = before.rtakeWhile (· ≠ '\n') ++ mid := by
      have hall : ∀ c ∈ mid.reverse, decide (c ≠ '\n') = true := fun c hc =>
        decide_eq_true fun he => hnew (he ▸ List.mem_reverse.1 hc)
      rw [List.rtakeWhile, List.reverse_append, List.takeWhile_append_of_pos hall,
        List.reverse_append, List.reverse_reverse, List.rtakeWhile]
    rw [List.count_eq_zero.2 hnew, Nat.add_zero, hline, List.length_append]
    exact .right _ (by omega)

/-- Before the end no number is zero, so the end of a brimful text comes before all else. -/
theorem position_size_lt (hsize : src.size < Span.limit) (h : src.Brimful) {m : Nat}
    (hm : src.Boundary m) (hlt : m < src.size) :
    Prod.Lex (· < ·) (· < ·) (src.position src.size) (src.position m) := by
  obtain ⟨before, after, hs, rfl⟩ := hm
  rw [position_boundary_of_fits hsize hs fun h => Nat.ne_of_lt hlt h.2]
  rcases position_of_brimful hsize h with hend | hend
  · rw [hend]
    rcases Nat.eq_zero_or_pos (before.count '\n') with hzero | hpos
    · rw [hzero]
      exact .right _ (by omega)
    · exact .left _ _ (by omega)
  · rw [hend]
    exact .left _ _ (by omega)

/-- What is past the end has the position of the end. -/
theorem position_of_size_le (hsize : src.size < Span.limit) {n : Nat} (hle : src.size ≤ n) :
    src.position n = src.position src.size := by
  have hlength : src.bytes.length = src.size := by rw [bytes_eq, length_utf8Bytes, ← size_eq]
  have hend := LineTable.index_build_of_le (by rwa [hlength]) (Nat.le_of_eq hlength)
  have hpast := LineTable.index_build_of_le (by rwa [hlength]) (hlength ▸ hle)
  rw [position, position, lines, hend, hpast, Nat.min_eq_right hle, Nat.min_self]

/-- No two positions come before each other. -/
theorem lex_asymm {p q : Nat × Nat} (h : Prod.Lex (· < ·) (· < ·) p q) :
    ¬ Prod.Lex (· < ·) (· < ·) q p := by
  rw [Prod.lex_def] at h ⊢
  omega

/-- **Lines and columns** of a text that is not too long. At a boundary both are counted, the
newlines among the bytes before it, and the characters before it since the last newline, just if the
boundary is not the end of a brimful text: this end has the line or the column zero. Later
boundaries have later positions, but for this end. No two have the same, and what is past the end
has the position of the end. -/
theorem position_counted_iff (hsize : src.size < Span.limit) :
    (∀ before after, src.chars = before ++ after →
      (src.position (utf8Length before)
          = (1 + (src.bytes.take (utf8Length before)).count newline,
            1 + (before.rtakeWhile (· ≠ '\n')).length) ↔
        ¬ (src.Brimful ∧ utf8Length before = src.size))) ∧
    (src.Brimful → src.position src.size = (1, 0) ∨ src.position src.size = (0, 1)) ∧
    (∀ m n, src.Boundary m → src.Boundary n → m < n →
      (Prod.Lex (· < ·) (· < ·) (src.position m) (src.position n) ↔
        ¬ (src.Brimful ∧ n = src.size))) ∧
    (∀ m n, src.Boundary m → src.Boundary n → src.position m = src.position n → m = n) ∧
    ∀ n, src.size ≤ n → src.position n = src.position src.size := by
  have hdiffer : ∀ {m n}, src.Boundary m → src.Boundary n → m < n →
      src.position m ≠ src.position n := by
    intro m n hm hn hlt heq
    by_cases hbrim : src.Brimful ∧ n = src.size
    · obtain ⟨hbrim, rfl⟩ := hbrim
      have hlex := position_size_lt hsize hbrim hm hlt
      exact lex_asymm hlex (heq ▸ hlex)
    · have hlex := position_lt hsize hm hn hlt hbrim
      exact lex_asymm hlex (heq ▸ hlex)
  refine ⟨fun before after hs => ?_, position_of_brimful hsize, fun m n hm hn hlt => ?_,
    fun m n hm hn heq => ?_, fun n => position_of_size_le hsize⟩
  · have htake : src.bytes.take (utf8Length before) = utf8Bytes before := by
      rw [bytes_eq, hs, utf8Bytes_append, ← length_utf8Bytes, List.take_left]
    rw [htake, count_utf8Bytes]
    refine ⟨fun heq hbrim => ?_, fun hfits => position_boundary_of_fits hsize hs hfits⟩
    -- both numbers that are counted are positive
    rcases position_of_brimful hsize hbrim.1 with hend | hend
    · rw [hbrim.2, hend, Prod.mk.injEq] at heq
      omega
    · rw [hbrim.2, hend, Prod.mk.injEq] at heq
      omega
  · refine ⟨fun hlex hbrim => ?_, position_lt hsize hm hn hlt⟩
    obtain ⟨hbrim, rfl⟩ := hbrim
    exact lex_asymm (position_size_lt hsize hbrim hm hlt) hlex
  · rcases Nat.lt_trichotomy m n with hlt | rfl | hlt
    · exact absurd heq (hdiffer hm hn hlt)
    · rfl
    · exact absurd heq.symm (hdiffer hn hm hlt)

/-- A text of two lines, the first of which has a letter of two bytes. -/
def twoLines : Source := ⟨"é = 1\nb"⟩

theorem position_counted_iff_twoLines :
    twoLines.size < Span.limit ∧ twoLines.position 3 = (1, 3) ∧
    Prod.Lex (· < ·) (· < ·) (twoLines.position 3) (twoLines.position 7) ∧
    ∀ n, 8 ≤ n → twoLines.position n = (2, 2) := by
  have hsize : twoLines.size < Span.limit := by decide
  have hshort : ¬ twoLines.Brimful := fun h => absurd h.length_eq (by decide)
  obtain ⟨hcount, -, hlt, -, hpast⟩ := position_counted_iff hsize
  have hthree := (hcount ['é', ' '] ['=', ' ', '1', '\n', 'b'] rfl).2 fun h => hshort h.1
  have hfirst : twoLines.Boundary 3 := ⟨['é', ' '], ['=', ' ', '1', '\n', 'b'], rfl, rfl⟩
  have hsecond : twoLines.Boundary 7 := ⟨['é', ' ', '=', ' ', '1', '\n'], ['b'], rfl, rfl⟩
  have hlater := (hlt 3 7 hfirst hsecond (by decide)).2 fun h => hshort h.1
  refine ⟨hsize, ?_, hlater, fun n hn => ?_⟩
  · exact hthree.trans (by decide +kernel)
  · exact (hpast n hn).trans (by decide +kernel)

/-- A text of one letter, again and again. -/
def letters (count : Nat) : Source := ⟨String.ofList (List.replicate count 'a')⟩

theorem chars_letters (count : Nat) : (letters count).chars = List.replicate count 'a' :=
  String.toList_ofList

theorem size_letters (count : Nat) : (letters count).size = count := by
  rw [size_eq, chars_letters]
  induction count with
  | zero => rfl
  | succ count ih =>
    rw [List.replicate_succ, utf8Length_cons, ih, Nat.add_comm]
    rfl

theorem newline_not_mem_letters (count : Nat) : '\n' ∉ (letters count).chars := by
  rw [chars_letters]
  intro h
  exact absurd (List.eq_of_mem_replicate h) (by decide)

/-- The letters end in a column that is one more than they are, unless that is too large. -/
theorem position_letters {count : Nat} (h : count < Span.limit) :
    (letters count).position count = (1, (1 + count) % Span.limit) := by
  have hsize : (letters count).size < Span.limit := by rwa [size_letters]
  have hnone := newline_not_mem_letters count
  have hend := position_boundary hsize (letters count).chars.append_nil.symm
  rw [← size_eq, size_letters, List.count_eq_zero.2 hnone, rtakeWhile_eq_self hnone,
    chars_letters, List.length_replicate] at hend
  exact hend

/-- The largest text of letters ends in the column zero, not in the one that is counted, and its end
does not come after its start. -/
theorem column_overflows :
    (letters 4294967295).size = 4294967295 ∧ 4294967295 < Span.limit ∧
    (letters 4294967295).Boundary 4294967295 ∧
    1 + ((letters 4294967295).chars.rtakeWhile (· ≠ '\n')).length = 4294967296 ∧
    (letters 4294967295).position 0 = (1, 1) ∧
    (letters 4294967295).position 4294967295 = (1, 0) := by
  have hlimit : 4294967295 < Span.limit := by decide
  have hsize : (letters 4294967295).size < Span.limit := by rwa [size_letters]
  refine ⟨size_letters _, hlimit, ?_, ?_, ?_, position_letters hlimit⟩
  · have hend := (letters 4294967295).boundary_size
    rwa [size_letters] at hend
  · rw [rtakeWhile_eq_self (newline_not_mem_letters _), chars_letters, List.length_replicate]
  · have hstart := position_boundary hsize (List.nil_append (letters 4294967295).chars).symm
    exact hstart

end Source

end Recast
