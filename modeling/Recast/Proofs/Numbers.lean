import Recast.Lexis.Number
import Mathlib.Data.List.Basic

/-!
# Numbers in a text

The functions that measure numbers look ahead, but what they take is decided by the characters that
they take: characters that are added behind a text change its measure only by being taken themselves
(`Number.Local`). A number literal is one of several candidates, each of which is measured in this
way (`Number.measures_local`). So a number that was read from a text is read again before anything
that no number takes, whatever came after it (`Number.length_append`).
-/

namespace Recast.Number

/-! ## Measures that look at what they take -/

/-- A measure of the head of a text that takes characters of one class. With more characters behind
the text it stays as it is, or it takes some of them. -/
structure Local (takes : Char → Bool) (f : List Char → Nat) : Prop where
  le : ∀ cs, f cs ≤ cs.length
  taken : ∀ (cs : List Char), ∀ c ∈ cs.take (f cs), takes c = true
  append : ∀ cs rest, f (cs ++ rest) = f cs ∨ cs.length < f (cs ++ rest)

section Local

variable {A B : Char → Bool} {f g : List Char → Nat}

theorem Local.mono (hf : Local A f) (h : ∀ c, A c = true → B c = true) : Local B f :=
  ⟨hf.le, fun cs c hc => h c (hf.taken cs c hc), hf.append⟩

theorem local_zero : Local A fun _ => 0 := ⟨by simp, by simp, by simp⟩

/-- A measure that takes more than the text has takes the character behind it. -/
theorem Local.takes_of_lt (hf : Local A f) {cs rest : List Char} {c : Char}
    (h : cs.length < f (cs ++ c :: rest)) : A c = true := by
  refine hf.taken (cs ++ c :: rest) c ?_
  rw [List.mem_take_iff_getElem]
  exact ⟨cs.length, by simp; omega, by simp⟩

/-- So it stays as it is before a character that it does not take. -/
theorem Local.append_cons (hf : Local A f) {c : Char} (hc : A c = false) (cs rest : List Char) :
    f (cs ++ c :: rest) = f cs := by
  rcases hf.append cs (c :: rest) with h | h
  · exact h
  · exact absurd (hf.takes_of_lt h) (by simp [hc])

/-- One character and a measure of the rest, which may be needed or not. -/
theorem Local.cons (hnil : f [] = 0)
    (hcons : ∀ c, (∀ cs, f (c :: cs) = 0) ∨
      A c = true ∧ ∃ g, Local A g ∧
        ((∀ cs, f (c :: cs) = 1 + g cs) ∨ ∀ cs, f (c :: cs) = after 1 (g cs))) :
    Local A f := by
  refine ⟨fun cs => ?_, fun cs => ?_, fun cs rest => ?_⟩
  · cases cs with
    | nil => simp [hnil]
    | cons c cs =>
      rcases hcons c with h | ⟨-, g, hg, h | h⟩
      · simp [h]
      · have := hg.le cs
        rw [h, List.length_cons]
        omega
      · have := hg.le cs
        rw [h, List.length_cons, after]
        split <;> omega
  · cases cs with
    | nil => simp
    | cons c cs =>
      rcases hcons c with h | ⟨hc, g, hg, h | h⟩
      · simp [h]
      · rw [h, Nat.add_comm, List.take_succ_cons]
        exact List.forall_mem_cons.2 ⟨hc, hg.taken cs⟩
      · rw [h, after]
        split
        · simp
        · rw [Nat.add_comm, List.take_succ_cons]
          exact List.forall_mem_cons.2 ⟨hc, hg.taken cs⟩
  · cases cs with
    | nil =>
      rw [List.nil_append, hnil, List.length_nil]
      omega
    | cons c cs =>
      rw [List.cons_append, List.length_cons]
      rcases hcons c with h | ⟨-, g, hg, h | h⟩
      · simp [h]
      · rw [h, h]
        rcases hg.append cs rest with hr | hr <;> omega
      · rw [h, h, after, after]
        rcases hg.append cs rest with hr | hr
        · simp [hr]
        · rw [if_neg (by omega)]
          omega

/-- One measure and another one of what is left. -/
theorem Local.add (hf : Local A f) (hg : Local A g) :
    Local A fun cs => f cs + g (cs.drop (f cs)) := by
  refine ⟨fun cs => ?_, fun cs => ?_, fun cs rest => ?_⟩
  · have h₁ := hf.le cs
    have h₂ := hg.le (cs.drop (f cs))
    rw [List.length_drop] at h₂
    omega
  · rw [List.take_add]
    exact List.forall_mem_append.2 ⟨hf.taken cs, hg.taken _⟩
  · rcases hf.append cs rest with h | h
    · have hle := hf.le cs
      rw [h, List.drop_append_of_le_length hle]
      rcases hg.append (cs.drop (f cs)) rest with h' | h'
      · exact .inl (by rw [h'])
      · rw [List.length_drop] at h'
        exact .inr (by omega)
    · exact .inr (by omega)

/-- The same where the first measure has to take something. -/
theorem Local.addPos (hf : Local A f) (hg : Local A g) :
    Local A fun cs => if f cs = 0 then 0 else f cs + g (cs.drop (f cs)) := by
  have hadd := hf.add hg
  refine ⟨fun cs => ?_, fun cs => ?_, fun cs rest => ?_⟩
  · split
    · exact Nat.zero_le _
    · exact hadd.le cs
  · split
    · simp
    · exact hadd.taken cs
  · rcases hf.append cs rest with h | h
    · rw [h]
      split
      · exact .inl rfl
      · rw [← h]
        have := hadd.append cs rest
        rwa [h] at this ⊢
    · rw [if_neg (by omega)]
      exact .inr (by omega)

/-- One measure and another one of what is left, which has to take something, and may depend on how
much the first one took. The second one begins with what the first one never takes. -/
theorem Local.seq {g : Nat → List Char → Nat} (hf : Local A f) (hg : ∀ n, Local B (g n))
    (hAB : ∀ c, A c = true → B c = true) (hnil : ∀ n, g n [] = 0)
    (hcons : ∀ n c cs, A c = true → g n (c :: cs) = 0) :
    Local B fun cs => after (f cs) (g (f cs) (cs.drop (f cs))) := by
  refine ⟨fun cs => ?_, fun cs => ?_, fun cs rest => ?_⟩
  · have h₁ := hf.le cs
    have h₂ := (hg (f cs)).le (cs.drop (f cs))
    rw [List.length_drop] at h₂
    rw [after]
    split <;> omega
  · rw [after]
    split
    · simp
    · rw [List.take_add]
      exact List.forall_mem_append.2
        ⟨fun c hc => hAB c (hf.taken cs c hc), (hg (f cs)).taken _⟩
  · rcases hf.append cs rest with h | h
    · have hle := hf.le cs
      rw [h, List.drop_append_of_le_length hle]
      rcases (hg (f cs)).append (cs.drop (f cs)) rest with h' | h'
      · exact .inl (by rw [h'])
      · rw [List.length_drop] at h'
        rw [after, if_neg (by omega)]
        exact .inr (by omega)
    · -- What the first measure takes behind the text begins nothing for the second one.
      have hzero : g (f cs) (cs.drop (f cs)) = 0 := by
        cases hd : cs.drop (f cs) with
        | nil => exact hnil _
        | cons c ds =>
          refine hcons _ c ds (hf.taken (cs ++ rest) c ?_)
          have hlt : f cs < cs.length := by
            have := congrArg List.length hd
            simp only [List.length_drop, List.length_cons] at this
            omega
          rw [List.mem_take_iff_getElem]
          refine ⟨f cs, by simp; omega, ?_⟩
          rw [List.getElem_append_left hlt, ← List.head_drop (by simp [hd])]
          simp [hd]
      rw [hzero]
      simp only [after]
      split
      · exact .inl rfl
      · exact .inr (by omega)

end Local

/-! ## Runs of digits -/

section Runs

variable {digit : Char → Bool}

/-- What a run of digits is made of. -/
def inRun (digit : Char → Bool) (c : Char) : Bool := digit c || c == '_'

theorem moreDigits_cons {c : Char} (hc : digit c = true) (cs : List Char) :
    moreDigits digit (c :: cs) = 1 + moreDigits digit cs := by
  cases cs <;> simp [moreDigits, hc]

theorem moreDigits_joined {c d : Char} (hc : ¬ digit c = true)
    (hu : (c == '_' && digit d) = true) (cs : List Char) :
    moreDigits digit (c :: d :: cs) = 2 + moreDigits digit cs := by
  rw [moreDigits, if_neg hc, if_pos hu]

theorem moreDigits_local : Local (inRun digit) (moreDigits digit) := by
  refine ⟨fun cs => ?_, fun cs => ?_, fun cs rest => ?_⟩
  · fun_induction moreDigits digit cs <;> simp_all <;> omega
  · fun_induction moreDigits digit cs with
    | case1 | case3 | case6 => simp
    | case2 c hc => simp [inRun, hc]
    | case4 c d cs hc ih =>
      rw [Nat.add_comm, List.take_succ_cons]
      exact List.forall_mem_cons.2 ⟨by simp [inRun, hc], ih⟩
    | case5 c d cs hc hu ih =>
      simp only [Bool.and_eq_true, beq_iff_eq] at hu
      rw [Nat.add_comm, List.take_succ_cons, List.take_succ_cons]
      refine List.forall_mem_cons.2 ⟨by simp [inRun, hu.1], List.forall_mem_cons.2 ⟨?_, ih⟩⟩
      simp [inRun, hu.2]
  · fun_induction moreDigits digit cs with
    | case1 =>
      rw [List.nil_append, List.length_nil]
      omega
    | case2 c hc =>
      rw [List.singleton_append, moreDigits_cons hc, List.length_singleton]
      omega
    | case3 c hc =>
      cases rest with
      | nil => exact .inl (by simp [moreDigits, hc])
      | cons d rest =>
        by_cases hu : (c == '_' && digit d) = true
        · rw [List.singleton_append, moreDigits_joined hc hu, List.length_singleton]
          omega
        · exact .inl (by rw [List.singleton_append, moreDigits, if_neg hc, if_neg hu])
    | case4 c d cs hc ih =>
      rw [List.cons_append, moreDigits_cons hc, List.length_cons]
      omega
    | case5 c d cs hc hu ih =>
      rw [List.cons_append, List.cons_append, moreDigits_joined hc hu, List.length_cons,
        List.length_cons]
      omega
    | case6 c d cs hc hu =>
      exact .inl (by rw [List.cons_append, List.cons_append, moreDigits, if_neg hc, if_neg hu])

theorem digits_local : Local (inRun digit) (digits digit) := by
  refine .cons rfl fun c => ?_
  by_cases hc : digit c = true
  · exact .inr ⟨by simp [inRun, hc], _, moreDigits_local, .inl fun cs => if_pos hc⟩
  · exact .inl fun cs => if_neg hc

theorem laterDigits_joined (cs : List Char) :
    laterDigits digit ('_' :: cs) = after 1 (digits digit cs) := by
  rw [laterDigits, after]
  cases digits digit cs with
  | zero => rfl
  | succ n => simp; omega

theorem laterDigits_local : Local (inRun digit) (laterDigits digit) := by
  refine .cons rfl fun c => ?_
  by_cases hu : c = '_'
  · subst hu
    exact .inr ⟨by simp [inRun], _, digits_local, .inr laterDigits_joined⟩
  · have hlater : ∀ cs, laterDigits digit (c :: cs) = digits digit (c :: cs) := by
      intro cs
      rw [laterDigits]
      intro ds h
      exact hu (List.cons.inj h).1
    by_cases hc : digit c = true
    · exact .inr ⟨by simp [inRun, hc], _, moreDigits_local, .inl fun cs => by
        rw [hlater, digits, if_pos hc]⟩
    · exact .inl fun cs => by rw [hlater, digits, if_neg hc]

end Runs

/-! ## Exponents -/

/-- What a number is made of, apart from the letter of an imaginary number. -/
def inNumber (c : Char) : Bool := isHexDigit c || "_.xXoOpP+-".toList.contains c

theorem inNumber_of_inRun {digit : Char → Bool} (hd : ∀ c, digit c = true → isHexDigit c = true)
    (c : Char) (hc : inRun digit c = true) : inNumber c = true := by
  simp only [inRun, Bool.or_eq_true, beq_iff_eq] at hc
  rcases hc with hc | rfl
  · simp [inNumber, hd c hc]
  · decide

theorem isHexDigit_of_isDigit (c : Char) (h : c.isDigit = true) : isHexDigit c = true := by
  simp [isHexDigit, h]

/-- A sign or none, and decimal digits. -/
def power : List Char → Nat
  | '+' :: cs | '-' :: cs => after 1 (digits Char.isDigit cs)
  | cs => digits Char.isDigit cs

theorem power_local : Local inNumber power := by
  have hdigits : Local inNumber (digits Char.isDigit) :=
    digits_local.mono (inNumber_of_inRun isHexDigit_of_isDigit)
  have hmore : Local inNumber (moreDigits Char.isDigit) :=
    moreDigits_local.mono (inNumber_of_inRun isHexDigit_of_isDigit)
  refine .cons rfl fun c => ?_
  by_cases hsign : c = '+' ∨ c = '-'
  · rcases hsign with rfl | rfl
    · exact .inr ⟨by decide, _, hdigits, .inr fun cs => rfl⟩
    · exact .inr ⟨by decide, _, hdigits, .inr fun cs => rfl⟩
  · have hpower : ∀ cs, power (c :: cs) = digits Char.isDigit (c :: cs) := by
      intro cs
      rw [power] <;> simp_all
    by_cases hc : c.isDigit = true
    · exact .inr ⟨by simp [inNumber, isHexDigit, hc], _, hmore, .inl fun cs => by
        rw [hpower, digits, if_pos hc]⟩
    · exact .inl fun cs => by rw [hpower, digits, if_neg hc]

theorem exponent_cons {letter : Char → Bool} {c : Char} (hc : letter c = true) (cs : List Char) :
    exponent letter (c :: cs) = after 1 (power cs) := by
  simp only [exponent.eq_def, if_pos hc]
  split
  · rename_i ds
    cases h : digits Char.isDigit ds <;> simp [power, h, after]
    omega
  · rename_i ds
    cases h : digits Char.isDigit ds <;> simp [power, h, after]
    omega
  · cases h : digits Char.isDigit cs <;> simp_all [power, after]
    omega

theorem exponent_local {letter : Char → Bool} (hl : ∀ c, letter c = true → inNumber c = true) :
    Local inNumber (exponent letter) := by
  refine .cons rfl fun c => ?_
  by_cases hc : letter c = true
  · exact .inr ⟨hl c hc, _, power_local, .inr fun cs => exponent_cons hc cs⟩
  · exact .inl fun cs => by simp only [exponent.eq_def, if_neg hc]

/-- An exponent begins with its letter. -/
theorem exponent_of_not {letter : Char → Bool} {c : Char} (hc : ¬ letter c = true)
    (cs : List Char) : exponent letter (c :: cs) = 0 := by
  simp only [exponent.eq_def, if_neg hc]

/-- Without a point, the digits before are followed by their exponent, if there are any. -/
theorem exponent_behind {letter : Char → Bool} (hl : ∀ c, letter c = true → inNumber c = true)
    {whole : Nat} {c : Char} {f : List Char → Nat}
    (hf : ∀ cs, f (c :: cs) = if whole = 0 then 0 else exponent letter (c :: cs)) :
    (∀ cs, f (c :: cs) = 0) ∨ inNumber c = true ∧
      ∃ g, Local inNumber g ∧
        ((∀ cs, f (c :: cs) = 1 + g cs) ∨ ∀ cs, f (c :: cs) = after 1 (g cs)) := by
  by_cases hc : whole ≠ 0 ∧ letter c = true
  · exact .inr ⟨hl c hc.2, _, power_local, .inr fun cs => by
      rw [hf, if_neg hc.1, exponent_cons hc.2]⟩
  · refine .inl fun cs => ?_
    rw [hf]
    split
    · rfl
    · exact exponent_of_not (fun h => hc ⟨by assumption, h⟩) cs

theorem isDecimalMark_of_inRun {c : Char} (hc : inRun Char.isDigit c = true) :
    ¬ isDecimalMark c = true ∧ c ≠ '.' := by
  refine ⟨fun h => ?_, ?_⟩
  · simp only [isDecimalMark, Bool.or_eq_true, beq_iff_eq] at h
    rcases h with rfl | rfl <;> exact absurd hc (by decide)
  · rintro rfl
    exact absurd hc (by decide)

theorem isHexMark_of_inRun {c : Char} (hc : inRun isHexDigit c = true) :
    ¬ isHexMark c = true ∧ c ≠ '.' := by
  refine ⟨fun h => ?_, ?_⟩
  · simp only [isHexMark, Bool.or_eq_true, beq_iff_eq] at h
    rcases h with rfl | rfl <;> exact absurd hc (by decide)
  · rintro rfl
    exact absurd hc (by decide)

theorem inNumber_of_isDecimalMark (c : Char) (h : isDecimalMark c = true) : inNumber c = true := by
  simp only [isDecimalMark, Bool.or_eq_true, beq_iff_eq] at h
  rcases h with rfl | rfl <;> decide

theorem inNumber_of_isHexMark (c : Char) (h : isHexMark c = true) : inNumber c = true := by
  simp only [isHexMark, Bool.or_eq_true, beq_iff_eq] at h
  rcases h with rfl | rfl <;> decide

/-! ## Candidates

What `integers`, `decimalFloats` and `hexFloats` list, as one measure for each kind of literal. -/

/-- Decimal digits; a leading zero stands alone. -/
def plain : List Char → Nat
  | '0' :: _ => 1
  | cs => digits Char.isDigit cs

/-- What makes a literal of a zero, a base and digits of this base. -/
def basedTail : List Char → Nat
  | 'x' :: ds | 'X' :: ds => after 1 (laterDigits isHexDigit ds)
  | 'b' :: ds | 'B' :: ds => after 1 (laterDigits isBinaryDigit ds)
  | 'o' :: ds | 'O' :: ds => after 1 (laterDigits isOctalDigit ds)
  | _ => 0

def based : List Char → Nat
  | '0' :: cs => after 1 (basedTail cs)
  | _ => 0

/-- A zero and octal digits. -/
def octal : List Char → Nat
  | '0' :: cs => after 1 (laterDigits isOctalDigit cs)
  | _ => 0

/-- What makes a decimal float of `whole` characters. -/
def decimalTail (whole : Nat) : List Char → Nat
  | '.' :: ds =>
    if whole = 0 ∧ digits Char.isDigit ds = 0 then 0
    else
      1 + (digits Char.isDigit ds + exponent isDecimalMark (ds.drop (digits Char.isDigit ds)))
  | cs => if whole = 0 then 0 else exponent isDecimalMark cs

def decimalFloat (cs : List Char) : Nat :=
  after (digits Char.isDigit cs)
    (decimalTail (digits Char.isDigit cs) (cs.drop (digits Char.isDigit cs)))

/-- What makes a hexadecimal float of `whole` characters. -/
def hexTail (whole : Nat) : List Char → Nat
  | '.' :: ds =>
    if whole = 0 ∧ digits isHexDigit ds = 0 then 0
    else
      after 1 (after (digits isHexDigit ds)
        (exponent isHexMark (ds.drop (digits isHexDigit ds))))
  | cs => if whole = 0 then 0 else exponent isHexMark cs

/-- What makes a hexadecimal float of a zero. -/
def hexMarked : List Char → Nat
  | x :: cs =>
    if x == 'x' || x == 'X' then
      after 1 (after (laterDigits isHexDigit cs)
        (hexTail (laterDigits isHexDigit cs) (cs.drop (laterDigits isHexDigit cs))))
    else 0
  | [] => 0

def hexFloat : List Char → Nat
  | '0' :: cs => after 1 (hexMarked cs)
  | _ => 0

/-- The literals that are no imaginary numbers. -/
def candidates : List (List Char → Nat) := [plain, based, octal, decimalFloat, hexFloat]

/-- A literal and the letter of an imaginary number. -/
def withMark (f : List Char → Nat) (cs : List Char) : Nat := imaginary cs (f cs)

/-- All number literals. -/
def measures : List (List Char → Nat) :=
  candidates ++ (digits Char.isDigit :: candidates).map withMark

theorem after_after (m n : Nat) (k : Nat) : after m (after n k) = after (m + n) k := by
  simp only [after]
  split <;> split <;> omega

theorem decimalTail_of_ne {cs : List Char} (h : ∀ ds, cs ≠ '.' :: ds) (whole : Nat) :
    decimalTail whole cs = if whole = 0 then 0 else exponent isDecimalMark cs := by
  unfold decimalTail
  split
  · rename_i ds
    exact absurd rfl (h ds)
  · rfl

theorem hexTail_of_ne {cs : List Char} (h : ∀ ds, cs ≠ '.' :: ds) (whole : Nat) :
    hexTail whole cs = if whole = 0 then 0 else exponent isHexMark cs := by
  unfold hexTail
  split
  · rename_i ds
    exact absurd rfl (h ds)
  · rfl

theorem forall_mem_decimalFloats {P : Nat → Prop} (h : P 0) (cs : List Char) :
    (∀ k ∈ decimalFloats cs, P k) ↔ P (decimalFloat cs) := by
  unfold decimalFloats decimalFloat
  dsimp only
  generalize digits Char.isDigit cs = whole
  split
  · rename_i ds hds
    rw [hds, decimalTail]
    split
    · simp [after, h]
    · rw [after, if_neg (by omega), List.forall_mem_singleton]
      simp only [Nat.add_assoc]
  · rename_i rest hrest
    rw [decimalTail_of_ne hrest]
    split
    · simp [after, h]
    · simp

theorem forall_mem_hexFloats {P : Nat → Prop} (h : P 0) (cs : List Char) :
    (∀ k ∈ hexFloats cs, P k) ↔ P (hexFloat cs) := by
  unfold hexFloats
  split
  · rename_i x cs
    by_cases hx : (x == 'x' || x == 'X') = true
    · rw [hexFloat, hexMarked, if_pos hx, if_pos hx, after_after]
      dsimp only
      generalize laterDigits isHexDigit cs = whole
      split
      · rename_i ds hds
        have hsum : 2 + (whole + (1 + digits isHexDigit ds))
            = whole + 3 + digits isHexDigit ds := by
          omega
        rw [hds, hexTail]
        split
        · simp [after, h]
        · simp only [after_after, List.forall_mem_singleton, hsum]
      · rename_i rest hrest
        rw [hexTail_of_ne hrest]
        split
        · simp [after, h]
        · rw [after_after, List.forall_mem_singleton, Nat.add_comm 2 whole]
    · rw [hexFloat, hexMarked, if_neg hx, if_neg hx]
      simp [after, h]
  · rename_i hzero
    have hfloat : hexFloat cs = 0 := by
      unfold hexFloat
      split
      · rename_i ds
        cases ds with
        | nil => rfl
        | cons x ds => exact absurd rfl (hzero x ds)
      · rfl
    simp [hfloat, h]

theorem integers_zero (cs : List Char) :
    integers ('0' :: cs) = [1, based ('0' :: cs), after 1 (laterDigits isOctalDigit cs)] := by
  simp only [integers, based, basedTail.eq_def]
  split <;> try simp only [after_after]
  -- What is left is the case without a mark.
  rfl

theorem forall_mem_integers {P : Nat → Prop} (h : P 0) (cs : List Char) :
    (∀ k ∈ integers cs, P k) ↔ P (plain cs) ∧ P (based cs) ∧ P (octal cs) := by
  by_cases hzero : ∃ ds, cs = '0' :: ds
  · obtain ⟨ds, rfl⟩ := hzero
    simp [integers_zero, plain, based, octal]
  · have hne : ∀ ds, cs ≠ '0' :: ds := fun ds hds => hzero ⟨ds, hds⟩
    have hintegers : integers cs = [digits Char.isDigit cs] := by
      rw [integers]
      exact fun ds hds => hne ds hds
    have hplain : plain cs = digits Char.isDigit cs := by
      rw [plain]
      exact fun ds hds => hne ds hds
    have hbased : based cs = 0 := by
      rw [based]
      exact fun ds hds => hne ds hds
    have hoctal : octal cs = 0 := by
      rw [octal]
      exact fun ds hds => hne ds hds
    simp [hintegers, hplain, hbased, hoctal, h]

theorem foldl_max_le_iff {ks : List Nat} {m n : Nat} :
    ks.foldl max m ≤ n ↔ m ≤ n ∧ ∀ k ∈ ks, k ≤ n := by
  induction ks generalizing m with
  | nil => simp
  | cons k ks ih =>
    rw [List.foldl_cons, ih, List.forall_mem_cons, Nat.max_le, and_assoc]

theorem imaginary_zero (cs : List Char) : imaginary cs 0 = 0 := by
  unfold imaginary after
  split <;> rfl

/-- The literal that is read is the longest one. -/
theorem length_le_iff {cs : List Char} {n : Nat} :
    length cs ≤ n ↔ ∀ f ∈ measures, f cs ≤ n := by
  have hreal : ∀ {P : Nat → Prop}, P 0 →
      ((((∀ k ∈ integers cs, P k) ∧ ∀ k ∈ decimalFloats cs, P k) ∧ ∀ k ∈ hexFloats cs, P k) ↔
        ∀ f ∈ candidates, P (f cs)) := by
    intro P h
    rw [forall_mem_integers h, forall_mem_decimalFloats h, forall_mem_hexFloats h]
    simp [candidates, and_assoc]
  have hzero : imaginary cs 0 ≤ n := by simp [imaginary_zero]
  rw [length, foldl_max_le_iff]
  simp only [Nat.zero_le, true_and, measures, List.forall_mem_append, List.map_cons,
    List.forall_mem_cons, List.forall_mem_map]
  rw [hreal (P := fun k => k ≤ n) (Nat.zero_le n), hreal (P := fun k => imaginary cs k ≤ n) hzero]
  rfl

/-! ## Literals in a text -/

theorem isHexDigit_of_isBinaryDigit (c : Char) (h : isBinaryDigit c = true) :
    isHexDigit c = true := by
  simp only [isBinaryDigit, Bool.or_eq_true, beq_iff_eq] at h
  rcases h with rfl | rfl <;> decide

theorem isHexDigit_of_isOctalDigit (c : Char) (h : isOctalDigit c = true) :
    isHexDigit c = true := by
  simp only [isOctalDigit, Bool.and_eq_true, decide_eq_true_eq] at h
  have hc : c ≤ '9' := Char.le_trans h.2 (by decide)
  have hdigit : c.isDigit = true := by
    simp only [Char.isDigit, Bool.and_eq_true, decide_eq_true_eq]
    exact ⟨h.1, hc⟩
  simp [isHexDigit, hdigit]

/-- A zero, and a measure of what comes after it. -/
theorem local_of_zero {f g : List Char → Nat} (hg : Local inNumber g)
    (hzero : ∀ cs, f ('0' :: cs) = after 1 (g cs)) (hne : ∀ c cs, c ≠ '0' → f (c :: cs) = 0)
    (hnil : f [] = 0) : Local inNumber f := by
  refine .cons hnil fun c => ?_
  by_cases hc : c = '0'
  · subst hc
    exact .inr ⟨by decide, g, hg, .inr hzero⟩
  · exact .inl fun cs => hne c cs hc

theorem plain_local : Local inNumber plain := by
  refine .cons rfl fun c => ?_
  by_cases hzero : c = '0'
  · subst hzero
    exact .inr ⟨by decide, _, local_zero, .inl fun cs => rfl⟩
  · have hplain : ∀ cs, plain (c :: cs) = digits Char.isDigit (c :: cs) := by
      intro cs
      rw [plain]
      intro ds h
      exact hzero (List.cons.inj h).1
    by_cases hc : c.isDigit = true
    · have hmore : Local inNumber (moreDigits Char.isDigit) :=
        moreDigits_local.mono (inNumber_of_inRun isHexDigit_of_isDigit)
      exact .inr ⟨by simp [inNumber, isHexDigit, hc], _, hmore, .inl fun cs => by
        rw [hplain, digits, if_pos hc]⟩
    · exact .inl fun cs => by rw [hplain, digits, if_neg hc]

theorem basedTail_local : Local inNumber basedTail := by
  have hhex : Local inNumber (laterDigits isHexDigit) :=
    laterDigits_local.mono (inNumber_of_inRun fun c h => h)
  have hbinary : Local inNumber (laterDigits isBinaryDigit) :=
    laterDigits_local.mono (inNumber_of_inRun isHexDigit_of_isBinaryDigit)
  have hoctal : Local inNumber (laterDigits isOctalDigit) :=
    laterDigits_local.mono (inNumber_of_inRun isHexDigit_of_isOctalDigit)
  refine .cons rfl fun c => ?_
  by_cases hc : c ∈ ['x', 'X', 'b', 'B', 'o', 'O']
  · right
    simp only [List.mem_cons, List.not_mem_nil, or_false] at hc
    rcases hc with rfl | rfl | rfl | rfl | rfl | rfl
    · exact ⟨by decide, _, hhex, .inr fun cs => rfl⟩
    · exact ⟨by decide, _, hhex, .inr fun cs => rfl⟩
    · exact ⟨by decide, _, hbinary, .inr fun cs => rfl⟩
    · exact ⟨by decide, _, hbinary, .inr fun cs => rfl⟩
    · exact ⟨by decide, _, hoctal, .inr fun cs => rfl⟩
    · exact ⟨by decide, _, hoctal, .inr fun cs => rfl⟩
  · left
    intro cs
    rw [basedTail] <;> (intro ds h; cases h; exact hc (by decide))

theorem based_local : Local inNumber based := by
  refine local_of_zero basedTail_local (fun cs => rfl) (fun c cs hc => ?_) rfl
  rw [based]
  intro ds h
  exact hc (List.cons.inj h).1

theorem octal_local : Local inNumber octal := by
  refine local_of_zero (laterDigits_local.mono (inNumber_of_inRun isHexDigit_of_isOctalDigit))
    (fun cs => rfl) (fun c cs hc => ?_) rfl
  rw [octal]
  intro ds h
  exact hc (List.cons.inj h).1

theorem decimalTail_local (whole : Nat) : Local inNumber (decimalTail whole) := by
  have hdigits : Local inNumber (digits Char.isDigit) :=
    digits_local.mono (inNumber_of_inRun isHexDigit_of_isDigit)
  have hexponent : Local inNumber (exponent isDecimalMark) :=
    exponent_local inNumber_of_isDecimalMark
  refine .cons ?_ fun c => ?_
  · simp [decimalTail, exponent]
  · by_cases hpoint : c = '.'
    · subst hpoint
      refine .inr ⟨by decide, ?_⟩
      by_cases hw : whole = 0
      · refine ⟨_, hdigits.addPos hexponent, .inr fun cs => ?_⟩
        rw [decimalTail, after]
        by_cases hd : digits Char.isDigit cs = 0
        · simp [hw, hd]
        · have hsum : digits Char.isDigit cs
              + exponent isDecimalMark (cs.drop (digits Char.isDigit cs)) ≠ 0 := by omega
          simp only [hd, if_false, hsum, and_false]
      · exact ⟨_, hdigits.add hexponent, .inl fun cs => by rw [decimalTail, if_neg (by omega)]⟩
    · exact exponent_behind inNumber_of_isDecimalMark fun cs =>
        decimalTail_of_ne (fun ds h => hpoint (List.cons.inj h).1) whole

theorem decimalFloat_local : Local inNumber decimalFloat := by
  refine digits_local.seq decimalTail_local (inNumber_of_inRun isHexDigit_of_isDigit)
    (fun n => ?_) fun n c cs hc => ?_
  · simp [decimalTail, exponent]
  · obtain ⟨hmark, hpoint⟩ := isDecimalMark_of_inRun hc
    rw [decimalTail_of_ne (fun ds h => hpoint (List.cons.inj h).1), exponent_of_not hmark]
    split <;> rfl

theorem hexTail_local (whole : Nat) : Local inNumber (hexTail whole) := by
  have hexponent : Local inNumber (exponent isHexMark) := exponent_local inNumber_of_isHexMark
  refine .cons ?_ fun c => ?_
  · simp [hexTail, exponent]
  · by_cases hpoint : c = '.'
    · subst hpoint
      -- After the point the digits may be missing only if there are some before it.
      have hfraction := digits_local.seq (f := digits isHexDigit) (B := inNumber)
        (g := fun n cs => if whole = 0 ∧ n = 0 then 0 else exponent isHexMark cs)
        (fun n => by
          by_cases hn : whole = 0 ∧ n = 0
          · simpa only [hn, and_self, if_true] using local_zero
          · simpa only [hn, if_false] using hexponent)
        (inNumber_of_inRun fun c h => h) (fun n => by simp [exponent])
        (fun n c cs hc => by
          rw [exponent_of_not (isHexMark_of_inRun hc).1]
          split <;> rfl)
      refine .inr ⟨by decide, _, hfraction, .inr fun cs => ?_⟩
      rw [hexTail]
      by_cases hn : whole = 0 ∧ digits isHexDigit cs = 0
      · simp [hn, after]
      · simp only [hn, if_false]
    · exact exponent_behind inNumber_of_isHexMark fun cs =>
        hexTail_of_ne (fun ds h => hpoint (List.cons.inj h).1) whole

theorem hexFloat_local : Local inNumber hexFloat := by
  have hwhole := laterDigits_local.seq hexTail_local (inNumber_of_inRun fun c h => h)
    (fun n => by simp [hexTail, exponent])
    (fun n c cs hc => by
      obtain ⟨hmark, hpoint⟩ := isHexMark_of_inRun hc
      rw [hexTail_of_ne (fun ds h => hpoint (List.cons.inj h).1), exponent_of_not hmark]
      split <;> rfl)
  have hmarked : Local inNumber hexMarked := by
    refine .cons rfl fun c => ?_
    by_cases hc : (c == 'x' || c == 'X') = true
    · refine .inr ⟨?_, _, hwhole, .inr fun cs => if_pos hc⟩
      simp only [Bool.or_eq_true, beq_iff_eq] at hc
      rcases hc with rfl | rfl <;> decide
    · exact .inl fun cs => if_neg hc
  refine local_of_zero hmarked (fun cs => rfl) (fun c cs hc => ?_) rfl
  rw [hexFloat]
  intro ds h
  exact hc (List.cons.inj h).1

/-- What an imaginary number is made of. -/
def inImaginary (c : Char) : Bool := inNumber c || c == 'i'

/-- The letter of an imaginary number of `count` characters. -/
def imaginaryMark (count : Nat) : List Char → Nat
  | 'i' :: _ => if count = 0 then 0 else 1
  | _ => 0

theorem imaginaryMark_of_ne {c : Char} (hc : c ≠ 'i') (count : Nat) (cs : List Char) :
    imaginaryMark count (c :: cs) = 0 := by
  rw [imaginaryMark]
  intro ds h
  exact hc (List.cons.inj h).1

theorem withMark_local {f : List Char → Nat} (hf : Local inNumber f) :
    Local inImaginary (withMark f) := by
  have hmark : ∀ n, Local inImaginary (imaginaryMark n) := by
    intro n
    refine .cons rfl fun c => ?_
    by_cases hc : c = 'i' ∧ n ≠ 0
    · obtain ⟨rfl, hn⟩ := hc
      exact .inr ⟨by decide, _, local_zero, .inl fun cs => if_neg hn⟩
    · refine .inl fun cs => ?_
      by_cases hi : c = 'i'
      · subst hi
        exact if_pos (by simpa using hc)
      · exact imaginaryMark_of_ne hi n cs
  have hseq := hf.seq hmark (fun c hc => by simp [inImaginary, hc]) (fun n => rfl)
    fun n c cs hc => imaginaryMark_of_ne (by rintro rfl; exact absurd hc (by decide)) n cs
  have heq : withMark f = fun cs => after (f cs) (imaginaryMark (f cs) (cs.drop (f cs))) := by
    funext cs
    unfold withMark imaginary
    split
    · rename_i ds hds
      rw [hds, imaginaryMark, after, after]
      split <;> simp [*, Nat.add_comm]
    · rename_i hne
      have hzero : imaginaryMark (f cs) (cs.drop (f cs)) = 0 := by
        rw [imaginaryMark]
        exact fun ds hds => hne ds hds
      rw [hzero]
      rfl
  rwa [heq]

theorem measures_local : ∀ f ∈ measures, Local inImaginary f := by
  have hmono : ∀ c, inNumber c = true → inImaginary c = true := by simp +contextual [inImaginary]
  have hcandidates : ∀ f ∈ candidates, Local inNumber f := by
    simp only [candidates, List.forall_mem_cons, List.not_mem_nil, false_implies, implies_true,
      and_true]
    exact ⟨plain_local, based_local, octal_local, decimalFloat_local, hexFloat_local⟩
  have hdigits : Local inNumber (digits Char.isDigit) :=
    digits_local.mono (inNumber_of_inRun isHexDigit_of_isDigit)
  refine List.forall_mem_append.2 ⟨fun f hf => (hcandidates f hf).mono hmono, ?_⟩
  rw [List.map_cons, List.forall_mem_cons, List.forall_mem_map]
  exact ⟨withMark_local hdigits, fun f hf => withMark_local (hcandidates f hf)⟩

/-- A number begins with a digit or a point. -/
theorem length_eq_zero {c : Char} (hd : c.isDigit = false) (hp : c ≠ '.') (cs : List Char) :
    length (c :: cs) = 0 := by
  have hzero : c ≠ '0' := by
    rintro rfl
    cases hd
  have hdigits : digits Char.isDigit (c :: cs) = 0 := by simp [digits, hd]
  have hcandidates : ∀ f ∈ candidates, f (c :: cs) = 0 := by
    have hplain : plain (c :: cs) = 0 := by
      rw [plain]
      · exact hdigits
      · exact fun ds h => hzero (List.cons.inj h).1
    have hbased : based (c :: cs) = 0 := by
      rw [based]
      exact fun ds h => hzero (List.cons.inj h).1
    have hoctal : octal (c :: cs) = 0 := by
      rw [octal]
      exact fun ds h => hzero (List.cons.inj h).1
    have hdecimal : decimalFloat (c :: cs) = 0 := by
      rw [decimalFloat, hdigits, List.drop_zero,
        decimalTail_of_ne fun ds h => hp (List.cons.inj h).1]
      rfl
    have hhex : hexFloat (c :: cs) = 0 := by
      rw [hexFloat]
      exact fun ds h => hzero (List.cons.inj h).1
    simp [candidates, hplain, hbased, hoctal, hdecimal, hhex]
  have hmark : ∀ f ∈ digits Char.isDigit :: candidates, withMark f (c :: cs) = 0 := by
    intro f hf
    have hf' : f (c :: cs) = 0 := by
      rcases List.mem_cons.1 hf with rfl | hf
      · exact hdigits
      · exact hcandidates f hf
    rw [withMark, hf', imaginary_zero]
  refine Nat.le_zero.1 (length_le_iff.2 (List.forall_mem_append.2 ⟨fun f hf => ?_, ?_⟩))
  · exact Nat.le_of_eq (hcandidates f hf)
  · exact List.forall_mem_map.2 fun f hf => Nat.le_of_eq (hmark f hf)

theorem length_le (cs : List Char) : length cs ≤ cs.length :=
  length_le_iff.2 fun f hf => (measures_local f hf).le cs

/-- A number that lies inside a text is read from it alone. -/
theorem length_of_append {cs rest : List Char} (h : length (cs ++ rest) ≤ cs.length) :
    length cs = length (cs ++ rest) := by
  have hsame : ∀ f ∈ measures, f (cs ++ rest) = f cs := by
    intro f hf
    have hle := length_le_iff.1 h f hf
    rcases (measures_local f hf).append cs rest with hs | hs
    · exact hs
    · omega
  apply Nat.le_antisymm
  · refine length_le_iff.2 fun f hf => ?_
    rw [← hsame f hf]
    exact length_le_iff.1 (Nat.le_refl _) f hf
  · refine length_le_iff.2 fun f hf => ?_
    rw [hsame f hf]
    exact length_le_iff.1 (Nat.le_refl _) f hf

/-- A number that was read from a text is read again before a character that no number takes. -/
theorem length_append {cs rest rest' : List Char} (h : length (cs ++ rest) = cs.length)
    (hrest : ∀ c ∈ rest'.head?, inImaginary c = false) : length (cs ++ rest') = cs.length := by
  have hle : length (cs ++ rest') ≤ cs.length := by
    refine length_le_iff.2 fun f hf => ?_
    have hsame : f (cs ++ rest') = f cs := by
      cases rest' with
      | nil => rw [List.append_nil]
      | cons c rest' => exact (measures_local f hf).append_cons (hrest c rfl) cs rest'
    rw [hsame]
    exact (measures_local f hf).le cs
  rw [← length_of_append hle, length_of_append (Nat.le_of_eq h), h]

end Recast.Number
