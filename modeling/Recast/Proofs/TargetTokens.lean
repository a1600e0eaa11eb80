import Recast.Proofs.Grouping
import Recast.Proofs.Operands

/-!
# Tokens of C++ expressions

How C++ cuts the text of an expression into tokens (`Token.scan`): blanks are left out, and of the
operators that a text begins with the longest is taken. `Expr.tokens` are the tokens that an
expression is meant to have. The text that is written has these tokens unless an operand is none to
C++, or two signs run together (`Expr.scan_text_iff`).
-/

namespace Recast

/-- How strongly C++ has an operator hold its operands, ten being the strongest; zero for what does
not stand between operands. -/
def Operator.targetStrength : Operator → Nat
  | .mul | .quo | .rem => 10
  | .add | .sub => 9
  | .shl | .shr => 8
  | .less | .lessEqual | .greater | .greaterEqual => 7
  | .equal | .notEqual => 6
  | .and => 5
  | .xor => 4
  | .or => 3
  | .logicalAnd => 2
  | .logicalOr => 1
  | _ => 0

end Recast

namespace Recast.Target

/-- A token of a C++ expression. What can be no part of an expression that is written here is kept
as `other`. -/
inductive Token where
  | name (text : String)
  | literal (text : String)
  | operator (op : Operator)
  | opening
  | closing
  | other (text : String)
  deriving Repr, DecidableEq, Inhabited

namespace Token

/-- How a token is written. -/
def text : Token → String
  | .name t | .literal t | .other t => t
  | .operator op => op.text
  | .opening => "("
  | .closing => ")"

/-- The words that C++ keeps for itself and that are no operands. Among them are the operators that
are spelled out. -/
def reserved : List String :=
  ["alignas", "alignof", "and", "and_eq", "asm", "auto", "bitand", "bitor", "bool", "break", "case",
    "catch", "char", "char8_t", "char16_t", "char32_t", "class", "compl", "concept", "const",
    "consteval", "constexpr", "constinit", "const_cast", "continue", "co_await", "co_return",
    "co_yield", "decltype", "default", "delete", "do", "double", "dynamic_cast", "else", "enum",
    "explicit", "export", "extern", "float", "for", "friend", "goto", "if", "inline", "int", "long",
    "mutable", "namespace", "new", "noexcept", "not", "not_eq", "operator", "or", "or_eq",
    "private", "protected", "public", "register", "reinterpret_cast", "requires", "return", "short",
    "signed", "sizeof", "static", "static_assert", "static_cast", "struct", "switch", "template",
    "thread_local", "throw", "try", "typedef", "typeid", "typename", "union", "unsigned", "using",
    "virtual", "void", "volatile", "wchar_t", "while", "xor", "xor_eq"]

def ofWord (w : String) : Token := if reserved.contains w then .other w else .name w

/-- The operators and marks, the longer before the shorter. -/
def marks : List Token :=
  [ .operator .shlAssign, .operator .shrAssign, .other "<=>", .other "->*", .other "...",
    .operator .inc, .operator .dec, .operator .shl, .operator .shr, .operator .lessEqual,
    .operator .greaterEqual, .operator .equal, .operator .notEqual, .operator .logicalAnd,
    .operator .logicalOr, .operator .addAssign, .operator .subAssign, .operator .mulAssign,
    .operator .quoAssign, .operator .remAssign, .operator .andAssign, .operator .orAssign,
    .operator .xorAssign, .other "->", .other ".*", .other "::", .other "##", .other "//",
    .other "/*", .other "<:", .other ":>", .other "<%", .other "%>", .other "%:",
    .operator .add, .operator .sub, .operator .mul, .operator .quo, .operator .rem, .operator .and,
    .operator .or, .operator .xor, .operator .less, .operator .greater, .operator .assign,
    .operator .not, .opening, .closing, .other "~", .other "?", .other ":", .other ",", .other ";",
    .other ".", .other "#", .other "[", .other "]", .other "\x7b", .other "\x7d" ]

/-- The first mark that fits is the longest that does. -/
theorem marks_pairwise : marks.Pairwise fun s t => t.text.length ≤ s.text.length := by decide

/-- A letter that begins an exponent and a sign after it. -/
def isSigned (c d : Char) : Bool := ['e', 'E', 'p', 'P'].contains c && (d == '+' || d == '-')

/-- The length of what continues a number: letters, digits, points, and signs after the letter of an
exponent. -/
def numberTail : List Char → Nat
  | [] => 0
  | [c] => if Letter.isMedial c || c == '.' then 1 else 0
  | c :: d :: cs =>
    if isSigned c d then 2 + numberTail cs
    else if Letter.isMedial c || c == '.' then 1 + numberTail (d :: cs)
    else 0

/-- Up to and with a closing quote. `\` takes along the character after it, and a line break ends
nothing. -/
def quoteTail (quote : Char) : List Char → Option Nat
  | [] => none
  | c :: cs =>
    if c == quote then some 1
    else if c == '\n' then none
    else if c == '\\' then
      match cs with
      | [] => none
      | _ :: cs => (quoteTail quote cs).map (· + 2)
    else (quoteTail quote cs).map (· + 1)

/-- The token that begins with a character, and how many of the characters after it it takes. -/
def read? (c : Char) (cs : List Char) : Option (Token × Nat) :=
  if Letter.isInitial c then
    let more := (cs.takeWhile Letter.isMedial).length
    some (ofWord (String.ofList (c :: cs.take more)), more)
  else if c.isDigit || (c == '.' && cs.head?.any Char.isDigit) then
    let more := numberTail cs
    some (.literal (String.ofList (c :: cs.take more)), more)
  else if c == '"' || c == '\'' then
    -- Between single quotes there is at least one character.
    ((quoteTail c cs).filter fun more => c == '"' || 1 < more).map fun more =>
      (.literal (String.ofList (c :: cs.take more)), more)
  else
    (marks.find? fun t => t.text.toList.isPrefixOf (c :: cs)).map fun t => (t, t.text.length - 1)

/-- The tokens of a text, if it is made of tokens and blanks. -/
def scan : List Char → Option (List Token)
  | [] => some []
  | c :: cs =>
    if Piece.isBlank c then scan cs
    else
      match read? c cs with
      | none => none
      | some (t, more) => (scan (cs.drop more)).map (t :: ·)
termination_by cs => cs.length
decreasing_by
  all_goals simp only [List.length_cons, List.length_drop]; omega

/-! ## Tokens by themselves and in a text -/

theorem numberTail_of_ends {rest : List Char} (h : EndsOperand rest) : numberTail rest = 0 := by
  match rest with
  | [] => rfl
  | [c] => rcases h c rfl with rfl | rfl | rfl <;> decide +kernel
  | c :: d :: rest =>
    have hc : Letter.isMedial c = false := h.not_isMedial c rfl
    rcases h c rfl with rfl | rfl | rfl <;> simp [numberTail, isSigned, hc]

theorem numberTail_append {rest : List Char} (h : EndsOperand rest) (cs : List Char) :
    numberTail (cs ++ rest) = numberTail cs := by
  -- A sign after the last letter would go on with the number.
  have hsign : ∀ c, ∀ d ∈ rest.head?, isSigned c d = false := by
    intro c d hd
    rcases h d hd with rfl | rfl | rfl <;> simp [isSigned]
  fun_induction numberTail cs with
  | case1 => exact numberTail_of_ends h
  | case2 c hc =>
    cases rest with
    | nil => simp [numberTail, hc]
    | cons d rest => simp [numberTail, hc, hsign c d rfl, numberTail_of_ends h]
  | case3 c hc =>
    cases rest with
    | nil => simp [numberTail, hc]
    | cons d rest => simp [numberTail, hc, hsign c d rfl]
  | case4 c d cs hc ih => simp [numberTail, hc, ih]
  | case5 c d cs hc hm ih =>
    rw [List.cons_append] at ih
    simp [numberTail, hc, hm, ih]
  | case6 c d cs hc hm => simp [numberTail, hc, hm]

/-- A quoted text is read up to its end only. -/
theorem quoteTail_take {quote : Char} {cs : List Char} {n : Nat}
    (h : quoteTail quote cs = some n) (rest : List Char) :
    quoteTail quote (cs.take n ++ rest) = some n := by
  fun_induction quoteTail quote cs generalizing n with
  | case1 => cases h
  | case2 c cs hc =>
    cases h
    rw [List.take_succ_cons, List.cons_append, quoteTail.eq_def]
    exact if_pos hc
  | case3 c cs hc hn => cases h
  | case4 c hc hn hb => cases h
  | case5 c hc hn hb d cs ih =>
    obtain ⟨m, hm, rfl⟩ := Option.map_eq_some_iff.1 h
    simp [quoteTail, hc, hn, hb, ih hm]
  | case6 c cs hc hn hb ih =>
    obtain ⟨m, hm, rfl⟩ := Option.map_eq_some_iff.1 h
    rw [List.take_succ_cons, List.cons_append, quoteTail.eq_def]
    simp [hc, hn, hb, ih hm]

theorem numberTail_le (cs : List Char) : numberTail cs ≤ cs.length := by
  fun_induction numberTail cs <;> simp_all <;> omega

theorem quoteTail_le {quote : Char} {cs : List Char} {n : Nat}
    (h : quoteTail quote cs = some n) : n ≤ cs.length := by
  fun_induction quoteTail quote cs generalizing n with
  | case1 | case3 | case4 => cases h
  | case2 c cs hc =>
    cases h
    exact Nat.succ_pos _
  | case5 c hc hn hb d cs ih | case6 c cs hc hn hb ih =>
    obtain ⟨m, hm, rfl⟩ := Option.map_eq_some_iff.1 h
    have := ih hm
    simp only [List.length_cons]
    omega

/-- The names and the literals among the tokens. -/
def isOperand : Token → Bool
  | .name _ | .literal _ => true
  | _ => false

theorem text_ofWord (w : String) : (ofWord w).text = w := by
  unfold ofWord
  split <;> rfl

theorem length_pos_of_mem_marks : ∀ t ∈ marks, 0 < t.text.length := by decide

theorem isOperand_of_mem_marks : ∀ t ∈ marks, t.isOperand = false := by decide

/-- A token is written as the characters that it takes. -/
theorem read?_text {c : Char} {cs : List Char} {t : Token} {n : Nat}
    (h : read? c cs = some (t, n)) : t.text.toList = c :: cs.take n ∧ n ≤ cs.length := by
  unfold read? at h
  split at h
  · cases h
    exact ⟨by rw [text_ofWord, String.toList_ofList], (List.takeWhile_prefix _).length_le⟩
  · split at h
    · cases h
      exact ⟨String.toList_ofList, numberTail_le cs⟩
    · split at h
      · obtain ⟨m, hm, he⟩ := Option.map_eq_some_iff.1 h
        cases he
        exact ⟨String.toList_ofList, quoteTail_le (Option.filter_eq_some_iff.1 hm).1⟩
      · obtain ⟨t', ht, he⟩ := Option.map_eq_some_iff.1 h
        cases he
        have hp := List.find?_some ht
        obtain ⟨rest, hrest⟩ := List.isPrefixOf_iff_prefix.1 hp
        have hpos := length_pos_of_mem_marks t (List.mem_of_find?_eq_some ht)
        rw [← String.length_toList] at hpos ⊢
        cases hw : t.text.toList with
        | nil => simp [hw] at hpos
        | cons d ds =>
          rw [hw] at hrest
          obtain ⟨rfl, rfl⟩ := List.cons.inj hrest
          simp

/-- An operand is the same token at the end of a text as before what ends it. -/
theorem read?_append {c : Char} {cs rest : List Char} {t : Token} (ht : t.isOperand = true)
    (hr : EndsOperand rest) :
    read? c (cs ++ rest) = some (t, cs.length) ↔ read? c cs = some (t, cs.length) := by
  have hpoint : (cs ++ rest).head?.any Char.isDigit = cs.head?.any Char.isDigit := by
    cases cs with
    | cons d cs => rfl
    | nil =>
      cases rest with
      | nil => rfl
      | cons d rest => rcases hr d rfl with rfl | rfl | rfl <;> rfl
  unfold read?
  dsimp only
  rw [hpoint, EndsOperand.takeWhile_append hr, numberTail_append hr,
    List.take_append_of_le_length (List.takeWhile_prefix _).length_le,
    List.take_append_of_le_length (numberTail_le cs)]
  split
  · rfl
  · split
    · rfl
    · split
      · simp only [Option.map_eq_some_iff, Option.filter_eq_some_iff, Prod.mk.injEq]
        constructor
        · rintro ⟨n, ⟨hq, hn⟩, he, rfl⟩
          have hq' := quoteTail_take hq []
          rw [List.take_left, List.append_nil] at hq'
          exact ⟨_, ⟨hq', hn⟩, by rwa [List.take_left, ← List.take_length (l := cs)] at he, rfl⟩
        · rintro ⟨n, ⟨hq, hn⟩, he, rfl⟩
          have hq' := quoteTail_take hq rest
          rw [List.take_length] at hq' he
          exact ⟨_, ⟨hq', hn⟩, by rwa [List.take_left], rfl⟩
      · -- A mark is no operand.
        have hmarks : ∀ {p : Token → Bool} {n : Nat},
            (marks.find? p).map (fun t => (t, t.text.length - 1)) ≠ some (t, n) := by
          intro p n h
          obtain ⟨t', hf, he⟩ := Option.map_eq_some_iff.1 h
          cases he
          exact absurd ht (by simp [isOperand_of_mem_marks t (List.mem_of_find?_eq_some hf)])
        exact iff_of_false hmarks hmarks

/-! ## Scanning -/

theorem scan_of_read? {c : Char} {cs : List Char} {t : Token} {n : Nat}
    (hc : Piece.isBlank c = false) (h : read? c cs = some (t, n)) :
    scan (c :: cs) = (scan (cs.drop n)).map (t :: ·) := by
  rw [scan, if_neg (by simp [hc]), h]

theorem scan_blank (cs : List Char) : scan (' ' :: cs) = scan cs := by
  rw [scan, if_pos (by decide)]

/-- The first token begins at the first character that is not blank. -/
theorem scan_eq_cons {cs : List Char} {t : Token} {ts : List Token} (h : scan cs = some (t :: ts)) :
    ∃ blanks c cs' n, cs = blanks ++ c :: cs' ∧ Piece.isBlank c = false ∧
      read? c cs' = some (t, n) ∧ scan (cs'.drop n) = some ts := by
  fun_induction scan cs with
  | case1 => cases h
  | case2 c cs hc ih =>
    obtain ⟨blanks, d, cs', n, rfl, hd, ht, hrest⟩ := ih h
    exact ⟨c :: blanks, d, cs', n, rfl, hd, ht, hrest⟩
  | case3 c cs hc hn => cases h
  | case4 c cs hc t' n ht ih =>
    obtain ⟨ts', hts, he⟩ := Option.map_eq_some_iff.1 h
    cases he
    exact ⟨[], c, cs, n, rfl, by simpa using hc, ht, hts⟩

/-- The first token of a text that begins with no blank is read from its first character. -/
theorem scan_cons_eq_cons {c : Char} {cs : List Char} {t : Token} {ts : List Token}
    (hc : Piece.isBlank c = false) (h : scan (c :: cs) = some (t :: ts)) :
    ∃ n, read? c cs = some (t, n) ∧ scan (cs.drop n) = some ts := by
  cases hr : read? c cs with
  | none =>
    rw [scan, if_neg (by simp [hc]), hr] at h
    cases h
  | some p =>
    rw [scan_of_read? hc hr] at h
    obtain ⟨ts', hts, he⟩ := Option.map_eq_some_iff.1 h
    cases he
    exact ⟨p.2, rfl, hts⟩

/-- A text is one operand if its first character begins an operand that takes all of it. -/
theorem scan_text_iff {t : Token} :
    scan t.text.toList = some [t] ↔
      ∃ c cs, t.text.toList = c :: cs ∧ Piece.isBlank c = false ∧
        read? c cs = some (t, cs.length) := by
  constructor
  · intro h
    obtain ⟨blanks, c, cs, n, hcs, hc, hr, -⟩ := scan_eq_cons h
    obtain ⟨htext, hn⟩ := read?_text hr
    have hlen := congrArg List.length (htext.symm.trans hcs)
    simp only [List.length_cons, List.length_append, List.length_take] at hlen
    obtain rfl : blanks = [] := List.length_eq_zero_iff.1 (by omega)
    obtain rfl : n = cs.length := by omega
    exact ⟨c, cs, hcs, hc, hr⟩
  · rintro ⟨c, cs, hcs, hc, hr⟩
    rw [hcs, scan_of_read? hc hr, List.drop_length, scan]
    rfl

/-- An operand before what ends it. -/
theorem scan_operand {t : Token} {rest : List Char} (ht : t.isOperand = true)
    (hr : EndsOperand rest) (h : scan t.text.toList = some [t]) :
    scan (t.text.toList ++ rest) = (scan rest).map (t :: ·) := by
  obtain ⟨c, cs, hcs, hc, ht'⟩ := scan_text_iff.1 h
  have ht'' := (read?_append ht hr).2 ht'
  rw [hcs, List.cons_append, scan_of_read? hc ht'', List.drop_left]

theorem scan_of_scan_operand {t : Token} {ts : List Token} {rest : List Char}
    (ht : t.isOperand = true) (hr : EndsOperand rest)
    (h : scan (t.text.toList ++ rest) = some (t :: ts)) :
    scan t.text.toList = some [t] ∧ scan rest = some ts := by
  obtain ⟨blanks, c, cs', m, -, hc, hfirst, -⟩ := scan_eq_cons h
  obtain ⟨htext, -⟩ := read?_text hfirst
  generalize cs'.take m = cs at htext
  rw [htext, List.cons_append] at h
  obtain ⟨n, hread, hrest⟩ := scan_cons_eq_cons hc h
  obtain ⟨htext', hn⟩ := read?_text hread
  have hlen := congrArg List.length (htext.symm.trans htext')
  simp only [List.length_cons, List.length_take] at hlen
  obtain rfl : n = cs.length := by omega
  rw [List.drop_left] at hrest
  exact ⟨scan_text_iff.2 ⟨c, cs, htext, hc, (read?_append ht hr).1 hread⟩, hrest⟩

/-- An operator between operands is written between blanks. -/
theorem scan_operator {op : Operator} (h : 0 < op.targetStrength) (rest : List Char) :
    scan (' ' :: (op.text.toList ++ ' ' :: rest)) = (scan rest).map (.operator op :: ·) := by
  obtain ⟨c, cs, hcs, hc, hread⟩ : ∃ c cs, op.text.toList = c :: cs ∧ Piece.isBlank c = false ∧
      read? c (cs ++ ' ' :: rest) = some (.operator op, cs.length) := by
    cases op <;> first
      | exact absurd h (by decide)
      | exact ⟨_, _, rfl, rfl, rfl⟩
  rw [scan_blank, hcs, List.cons_append, scan_of_read? hc hread, List.drop_left, scan_blank]

/-- The characters that begin a mark here; one begins no name and no literal. -/
def signs : List Char := ['+', '-', '!', '=', '>', '(', ')']

theorem read?_of_mem_signs {c : Char} (hc : c ∈ signs) (cs : List Char) :
    read? c cs = (marks.find? fun t => t.text.toList.isPrefixOf (c :: cs)).map
      fun t => (t, t.text.length - 1) := by
  have hother : signs.all (fun c => !Letter.isInitial c && !c.isDigit && c != '.' && c != '"' &&
      c != '\'') = true := by
    decide
  have hc' := List.all_eq_true.1 hother c hc
  simp only [Bool.and_eq_true, Bool.not_eq_true', bne_iff_ne] at hc'
  obtain ⟨⟨⟨⟨hletter, hdigit⟩, hpoint⟩, hdouble⟩, hsingle⟩ := hc'
  simp [read?, hletter, hdigit, hpoint, hdouble, hsingle]

/-- A text that begins with a mark of one character. -/
theorem scan_mark {c : Char} {cs : List Char} {t : Token} (hc : c ∈ signs)
    (h : marks.find? (fun t => t.text.toList.isPrefixOf (c :: cs)) = some t)
    (ht : t.text.toList = [c]) : scan (c :: cs) = (scan cs).map (t :: ·) := by
  have hblank : signs.all (fun c => !Piece.isBlank c) = true := by decide
  have hread : read? c cs = some (t, 0) := by
    have hlength : t.text.length - 1 = 0 := by
      rw [← String.length_toList, ht]
      rfl
    rw [read?_of_mem_signs hc, h, Option.map_some, hlength]
  exact scan_of_read? (by simpa using List.all_eq_true.1 hblank c hc) hread

/-- No name and no literal begins with a mark. -/
theorem not_mem_signs {c : Char} {cs : List Char} {t : Token} {n : Nat} (ht : t.isOperand = true)
    (h : read? c cs = some (t, n)) : c ∉ signs := by
  intro hc
  rw [read?_of_mem_signs hc] at h
  obtain ⟨t', hf, he⟩ := Option.map_eq_some_iff.1 h
  cases he
  exact absurd ht (by simp [isOperand_of_mem_marks t (List.mem_of_find?_eq_some hf)])

theorem scan_opening (cs : List Char) : scan ('(' :: cs) = (scan cs).map (.opening :: ·) := by
  refine scan_mark (by decide) ?_ rfl
  simp [marks, text, Operator.text]

theorem scan_closing (cs : List Char) : scan (')' :: cs) = (scan cs).map (.closing :: ·) := by
  refine scan_mark (by decide) ?_ rfl
  simp [marks, text, Operator.text]

/-- A prefix operator stands right before its operand, which must not begin with what would make a
longer operator of it. -/
theorem scan_sign {op : Operator} (h : op.isUnary = true) {c : Char} {cs : List Char}
    (hequal : c ≠ '=') (harrow : c ≠ '>') (hinc : op = .add → c ≠ '+')
    (hdec : op = .sub → c ≠ '-') :
    scan (op.text.toList ++ c :: cs) = (scan (c :: cs)).map (.operator op :: ·) := by
  cases op with
  | add =>
    refine scan_mark (c := '+') (by decide) ?_ rfl
    simp [marks, text, Operator.text, List.isPrefixOf, hequal.symm, (hinc rfl).symm]
  | sub =>
    refine scan_mark (c := '-') (by decide) ?_ rfl
    simp [marks, text, Operator.text, List.isPrefixOf, hequal.symm, harrow.symm, (hdec rfl).symm]
  | not =>
    refine scan_mark (c := '!') (by decide) ?_ rfl
    simp [marks, text, Operator.text, List.isPrefixOf, hequal.symm]
  | _ => cases h

/-- What follows a prefix operator that is read as it is. -/
theorem scan_of_scan_sign {op : Operator} (h : op.isUnary = true) {cs : List Char}
    {ts : List Token} (hs : scan (op.text.toList ++ cs) = some (.operator op :: ts)) :
    scan cs = some ts := by
  obtain ⟨d, hd, hblank⟩ : ∃ d, op.text.toList = [d] ∧ Piece.isBlank d = false := by
    cases op <;> first
      | exact ⟨_, rfl, rfl⟩
      | cases h
  rw [hd] at hs
  obtain ⟨n, hread, hrest⟩ := scan_cons_eq_cons hblank hs
  obtain ⟨htext, hn⟩ := read?_text hread
  have hlen := congrArg List.length (htext.symm.trans hd)
  simp only [List.length_cons, List.length_take, List.length_nil] at hlen
  obtain rfl : n = 0 := by omega
  exact hrest

/-- Two signs that touch are one operator. -/
theorem scan_doubled {op : Operator} (h : op = .add ∨ op = .sub) (cs : List Char)
    (ts : List Token) :
    scan (op.text.toList ++ (op.text.toList ++ cs)) ≠ some (.operator op :: ts) := by
  obtain ⟨c, t, hc, hblank, ht, hread⟩ : ∃ c t, op.text.toList = [c] ∧ Piece.isBlank c = false ∧
      t ≠ .operator op ∧ read? c (c :: cs) = some (t, 1) := by
    rcases h with rfl | rfl
    · exact ⟨'+', .operator .inc, rfl, rfl, by decide, rfl⟩
    · exact ⟨'-', .operator .dec, rfl, rfl, by decide, rfl⟩
  intro hs
  rw [hc] at hs
  obtain ⟨n, hread', -⟩ := scan_cons_eq_cons hblank hs
  cases hread.symm.trans hread'
  exact ht rfl

end Token

/-! ## Tokens of expressions -/

namespace Expr

/-- The tokens that an expression is meant to have. -/
def tokens : Expr → List Token
  | .literal t => [.literal t]
  | .name n => [.name n]
  | .binary op l r => l.tokens ++ .operator op :: r.tokens
  | .unary op x => .operator op :: x.tokens
  | .paren x => .opening :: (x.tokens ++ [.closing])
  | .message x => .name "QString" :: .opening :: (x.tokens ++ [.closing])
  | .placeholder => [.name "unsupported"]

/-- The names and the literals in an expression. -/
def operands : Expr → List Token
  | .literal t => [.literal t]
  | .name n => [.name n]
  | .binary _ l r => l.operands ++ r.operands
  | .unary _ x | .paren x | .message x => x.operands
  | .placeholder => []

/-- Every name and every literal is by itself an operand to C++. -/
def OperandsStand (x : Expr) : Prop :=
  ∀ t ∈ x.operands, Token.scan t.text.toList = some [t]

/-- The prefix operator that an expression begins with. -/
def sign? : Expr → Option Operator
  | .unary op _ => some op
  | _ => none

/-- No `+` stands right before a `+`, and no `-` right before a `-`. -/
def SignsApart : Expr → Prop
  | .binary _ l r => l.SignsApart ∧ r.SignsApart
  | .unary op x => (op = .add ∨ op = .sub → x.sign? ≠ some op) ∧ x.SignsApart
  | .paren x | .message x => x.SignsApart
  | .literal _ | .name _ | .placeholder => True

/-- An operand without a sign begins with no sign. -/
theorem text_eq_cons {strength : Operator → Nat} {x : Expr} (hf : x.Formed strength)
    (htop : x.top? = none) (hsign : x.sign? = none) (ho : x.OperandsStand) :
    ∃ c cs, x.text.toList = c :: cs ∧ c ∉ ['=', '>', '+', '-'] := by
  have hoperand : ∀ {t : Token}, t.isOperand = true → Token.scan t.text.toList = some [t] →
      ∃ c cs, t.text.toList = c :: cs ∧ c ∉ ['=', '>', '+', '-'] := by
    intro t ht h
    obtain ⟨c, cs, hcs, -, hread⟩ := Token.scan_text_iff.1 h
    have hsub : ∀ c ∈ ['=', '>', '+', '-'], c ∈ Token.signs := by simp [Token.signs]
    exact ⟨c, cs, hcs, fun hc => Token.not_mem_signs ht hread (hsub c hc)⟩
  cases x with
  | literal t => exact hoperand (t := .literal t) rfl (ho _ List.mem_cons_self)
  | name n => exact hoperand (t := .name n) rfl (ho _ List.mem_cons_self)
  | binary => cases htop
  | unary => cases hsign
  | paren x => exact ⟨'(', _, toList_text_paren x, by decide⟩
  | message | placeholder => exact hf.elim

/-- A prefix operator is read as it is unless its operand begins with the same sign. -/
theorem scan_text_unary {strength : Operator → Nat} {op : Operator} {x : Expr}
    (hop : op.isUnary = true) (hf : x.Formed strength) (htop : x.top? = none)
    (ho : x.OperandsStand) (hapart : op = .add ∨ op = .sub → x.sign? ≠ some op)
    (rest : List Char) :
    Token.scan (op.text.toList ++ (x.text.toList ++ rest))
      = (Token.scan (x.text.toList ++ rest)).map (.operator op :: ·) := by
  obtain ⟨c, cs, hcs, hequal, harrow, hinc, hdec⟩ : ∃ c cs, x.text.toList = c :: cs ∧ c ≠ '=' ∧
      c ≠ '>' ∧ (op = .add → c ≠ '+') ∧ (op = .sub → c ≠ '-') := by
    cases hsign : x.sign? with
    | none =>
      obtain ⟨c, cs, hcs, hc⟩ := text_eq_cons hf htop hsign ho
      simp only [List.mem_cons, List.not_mem_nil, or_false, not_or] at hc
      exact ⟨c, cs, hcs, hc.1, hc.2.1, fun _ => hc.2.2.1, fun _ => hc.2.2.2⟩
    | some op' =>
      cases x with
      | unary op'' y =>
        obtain rfl := Option.some.inj hsign
        have hne : op = .add ∨ op = .sub → op'' ≠ op := fun h he => hapart h (congrArg some he)
        rw [toList_text_unary]
        cases op'' with
        | add => exact ⟨'+', _, rfl, by decide, by decide, fun h => absurd h.symm (hne (.inl h)),
            fun _ => by decide⟩
        | sub => exact ⟨'-', _, rfl, by decide, by decide, fun _ => by decide,
            fun h => absurd h.symm (hne (.inr h))⟩
        | not => exact ⟨'!', _, rfl, by decide, by decide, fun _ => by decide, fun _ => by decide⟩
        | _ => cases hf.1
      | _ => cases hsign
  rw [hcs]
  exact Token.scan_sign hop hequal harrow hinc hdec

/-- If the operands are what they are to C++ too and the signs are apart, the text has the tokens of
the expression. -/
theorem scan_text : ∀ {x : Expr}, x.Formed Operator.targetStrength → x.OperandsStand →
    x.SignsApart → ∀ {rest : List Char}, EndsOperand rest →
      Token.scan (x.text.toList ++ rest) = (Token.scan rest).map (x.tokens ++ ·)
  | .literal t, _, ho, _, rest, hr =>
    Token.scan_operand (t := .literal t) rfl hr (ho _ List.mem_cons_self)
  | .name n, _, ho, _, rest, hr =>
    Token.scan_operand (t := .name n) rfl hr (ho _ List.mem_cons_self)
  | .binary op l r, hf, ho, hs, rest, hr => by
    obtain ⟨hop, hlf, hrf⟩ := hf
    obtain ⟨hlo, hro⟩ := List.forall_mem_append.1 ho
    have hblank : EndsOperand (' ' :: (op.text.toList ++ ' ' :: (r.text.toList ++ rest))) := by
      simp [EndsOperand]
    rw [toList_text_binary, List.append_assoc, List.cons_append, List.append_assoc,
      List.cons_append, scan_text hlf hlo hs.1 hblank, Token.scan_operator hop,
      scan_text hrf hro hs.2 hr]
    simp [tokens, Function.comp_def]
  | .unary op x, hf, ho, hs, rest, hr => by
    obtain ⟨hop, htop, hxf⟩ := hf
    rw [toList_text_unary, List.append_assoc, scan_text_unary hop hxf htop ho hs.1,
      scan_text hxf ho hs.2 hr]
    simp [tokens, Function.comp_def]
  | .paren x, hf, ho, hs, rest, hr => by
    have hclosing : EndsOperand (')' :: rest) := by simp [EndsOperand]
    rw [toList_text_paren, List.cons_append, List.append_assoc, List.singleton_append,
      Token.scan_opening, scan_text (x := x) hf ho hs hclosing, Token.scan_closing]
    simp [tokens, Function.comp_def]
  | .message _, hf, _, _, _, _ | .placeholder, hf, _, _, _, _ => hf.elim

/-- If the text has the tokens of the expression, then every operand of the expression was one by
itself, and no signs ran together. -/
theorem of_scan_text : ∀ {x : Expr}, x.Formed Operator.targetStrength →
    ∀ {rest : List Char} {ts : List Token}, EndsOperand rest →
      Token.scan (x.text.toList ++ rest) = some (x.tokens ++ ts) →
      x.OperandsStand ∧ x.SignsApart ∧ Token.scan rest = some ts
  | .literal t, _, rest, ts, hr, h => by
    obtain ⟨ho, hrest⟩ := Token.scan_of_scan_operand (t := .literal t) rfl hr h
    exact ⟨List.forall_mem_singleton.2 ho, trivial, hrest⟩
  | .name n, _, rest, ts, hr, h => by
    obtain ⟨ho, hrest⟩ := Token.scan_of_scan_operand (t := .name n) rfl hr h
    exact ⟨List.forall_mem_singleton.2 ho, trivial, hrest⟩
  | .binary op l r, hf, rest, ts, hr, h => by
    obtain ⟨hop, hlf, hrf⟩ := hf
    have hblank : EndsOperand (' ' :: (op.text.toList ++ ' ' :: (r.text.toList ++ rest))) := by
      simp [EndsOperand]
    rw [toList_text_binary, List.append_assoc, List.cons_append, List.append_assoc,
      List.cons_append, tokens, List.append_assoc] at h
    obtain ⟨hlo, hls, h⟩ := of_scan_text hlf hblank h
    rw [Token.scan_operator hop] at h
    obtain ⟨ts', h, he⟩ := Option.map_eq_some_iff.1 h
    cases he
    obtain ⟨hro, hrs, h⟩ := of_scan_text hrf hr h
    exact ⟨List.forall_mem_append.2 ⟨hlo, hro⟩, ⟨hls, hrs⟩, h⟩
  | .unary op x, hf, rest, ts, hr, h => by
    obtain ⟨hop, htop, hxf⟩ := hf
    rw [toList_text_unary, List.append_assoc] at h
    obtain ⟨ho, hs, hrest⟩ := of_scan_text hxf hr (Token.scan_of_scan_sign hop h)
    refine ⟨ho, ⟨fun hsign he => ?_, hs⟩, hrest⟩
    cases x with
    | unary op' y =>
      obtain rfl := Option.some.inj he
      rw [toList_text_unary, List.append_assoc] at h
      exact Token.scan_doubled hsign _ _ h
    | _ => cases he
  | .paren x, hf, rest, ts, hr, h => by
    have hclosing : EndsOperand (')' :: rest) := by simp [EndsOperand]
    rw [toList_text_paren, List.cons_append, List.append_assoc, List.singleton_append,
      Token.scan_opening] at h
    obtain ⟨ts', h, he⟩ := Option.map_eq_some_iff.1 h
    obtain rfl : ts' = x.tokens ++ .closing :: ts := by simpa [tokens] using he
    obtain ⟨ho, hs, h⟩ := of_scan_text (x := x) hf hclosing h
    rw [Token.scan_closing] at h
    obtain ⟨ts', h, he⟩ := Option.map_eq_some_iff.1 h
    cases he
    exact ⟨ho, hs, h⟩
  | .message _, hf, _, _, _, _ | .placeholder, hf, _, _, _, _ => hf.elim

/-- The text of an expression has the tokens of the expression if and only if its operands are what
they are to C++ too and no signs run together. -/
theorem scan_text_iff {x : Expr} (hf : x.Formed Operator.targetStrength) :
    Token.scan x.text.toList = some x.tokens ↔ x.OperandsStand ∧ x.SignsApart := by
  have hends : EndsOperand [] := by simp [EndsOperand]
  have hnil : Token.scan [] = some [] := by rw [Token.scan]
  constructor
  · intro h
    have h' : Token.scan (x.text.toList ++ []) = some (x.tokens ++ []) := by simpa using h
    obtain ⟨ho, hs, -⟩ := of_scan_text hf hends h'
    exact ⟨ho, hs⟩
  · rintro ⟨ho, hs⟩
    have h := scan_text hf ho hs hends
    rw [hnil] at h
    simpa using h

end Expr

end Recast.Target
