import Recast.Lexis.Letter
import Recast.Lexis.Mark
import Recast.Lexis.Number

/-!
# Pieces of a source

A source text is cut into pieces: blanks, comments and lexemes. A piece is read
as a kind and a length, so its text and what follows are the two halves of the
text at that length, and the pieces joined give the source back
(`join_scan`). A character that begins no piece ends the scan.
-/

namespace Recast

inductive LiteralKind where
  | number
  | rune
  | string
  deriving Repr, DecidableEq, Inhabited

inductive PieceKind where
  | blank
  | comment
  | word
  | literal (kind : LiteralKind)
  | mark (m : Mark)
  deriving Repr, DecidableEq, Inhabited

/-- A piece of a source and its text. -/
structure Piece where
  kind : PieceKind
  text : List Char
  deriving Repr, DecidableEq, Inhabited

namespace Piece

/-- White space: blank, tabs, line breaks, form feed. -/
def isBlank (c : Char) : Bool := c == ' ' || ('\t' ≤ c && c ≤ '\r')

/-! ## The length of a piece

Each function is given what follows the opening of a piece and tells how many
characters of it the piece takes. No comment and no quoted text holds a NUL. -/

/-- Up to and with `*/`. -/
def commentTail : List Char → Option Nat
  | [] | '\x00' :: _ => none
  | '*' :: '/' :: _ => some 2
  | _ :: cs => (commentTail cs).map (· + 1)

/-- A text begins with a number of hexadecimal digits. -/
def startsHex (count : Nat) (cs : List Char) : Bool :=
  count ≤ cs.length && (cs.take count).all Number.isHexDigit

/-- A character that `\` takes along in a string, before others: `x`, `u` and `U`
need their digits after them. -/
def isEscaped (c : Char) (cs : List Char) : Bool :=
  if c == 'x' then startsHex 2 cs
  else if c == 'u' then startsHex 4 cs
  else if c == 'U' then startsHex 8 cs
  else c != '\x00'

/-- Up to and with the closing quote of a string in which `\` takes along the
character after it. A line break ends no string. -/
def stringTail : List Char → Option Nat
  | [] | '\n' :: _ | '\x00' :: _ => none
  | '"' :: _ => some 1
  | '\\' :: c :: cs => if isEscaped c cs then (stringTail cs).map (· + 2) else none
  | _ :: cs => (stringTail cs).map (· + 1)

/-- Up to and with the closing quote of a string without escapes. -/
def rawTail : List Char → Option Nat
  | [] | '\x00' :: _ => none
  | '`' :: _ => some 1
  | _ :: cs => (rawTail cs).map (· + 1)

/-- The length of an escape in a rune literal, after its `\`. -/
def runeEscape : List Char → Option Nat
  | 'x' :: cs => hex 2 cs
  | 'u' :: cs => hex 4 cs
  | 'U' :: cs => hex 8 cs
  | c :: cs =>
    if "abfnrtv\\'\"".toList.contains c then some 1
    else if (c :: cs.take 2).all Number.isOctalDigit && 2 ≤ cs.length then some 3
    else none
  | [] => none
where
  /-- A letter and a given number of hexadecimal digits. -/
  hex (count : Nat) (cs : List Char) : Option Nat :=
    if startsHex count cs then some (count + 1) else none

/-- One character or escape, and the closing quote. -/
def runeTail : List Char → Option Nat
  | '\\' :: cs => do
    let count ← runeEscape cs
    guard (cs[count]? = some '\'')
    return count + 2
  | '\'' :: _ | '\x00' :: _ => none
  | _ :: '\'' :: _ => some 2
  | _ => none

/-- A character that a comment of one line does not take. -/
def endsLine (c : Char) : Bool := c == '\n' || c == '\x00'

/-- The length of a comment after its first `/`. An opening `/*` that is never
closed begins no comment. -/
def commentLength? : List Char → Option Nat
  | '/' :: cs => some (1 + (cs.takeWhile (!endsLine ·)).length)
  | '*' :: cs => (commentTail cs).map (· + 1)
  | _ => none

/-- The piece that begins with a character: its kind, and how many of the
characters that follow it takes. -/
def measure? (c : Char) (cs : List Char) : Option (PieceKind × Nat) :=
  if isBlank c then some (.blank, 0)
  else if Letter.isInitial c then some (.word, (cs.takeWhile Letter.isMedial).length)
  else if 0 < Number.length (c :: cs) then
    some (.literal .number, Number.length (c :: cs) - 1)
  else if c == '"' then (stringTail cs).map fun n => (.literal .string, n)
  else if c == '`' then (rawTail cs).map fun n => (.literal .string, n)
  else if c == '\'' then (runeTail cs).map fun n => (.literal .rune, n)
  else
    match if c == '/' then commentLength? cs else none with
    | some n => some (.comment, n)
    | none => (Mark.read? c cs).map fun (m, n) => (.mark m, n)

/-! ## Scanning -/

/-- The pieces of a text; if a character begins no piece, those before it and
the offset in characters at which it stands. -/
def scan : List Char → Except Nat (List Piece)
  | [] => .ok []
  | c :: cs =>
    match measure? c cs with
    | none => .error 0
    | some (kind, more) =>
      match scan (cs.drop more) with
      | .ok pieces => .ok (⟨kind, c :: cs.take more⟩ :: pieces)
      | .error n => .error (n + 1 + min more cs.length)
termination_by cs => cs.length
decreasing_by rw [List.length_drop, List.length_cons]; omega

/-- The pieces of a source. A byte order mark at its head counts as a blank. -/
def ofChars : List Char → Except Nat (List Piece)
  | '\uFEFF' :: cs => (scan cs).map (⟨.blank, ['\uFEFF']⟩ :: ·)
  | cs => scan cs

/-- Nothing of a source is lost, added or moved by cutting it into pieces. -/
theorem join_scan {cs : List Char} {ps : List Piece} (h : scan cs = .ok ps) :
    ps.flatMap Piece.text = cs := by
  induction cs using scan.induct generalizing ps with
  | case1 => simp_all [scan]
  | case2 c cs hm => simp [scan, hm] at h
  | case3 c cs kind more hm pieces hs ih =>
    rw [scan, hm] at h
    simp only [hs, Except.ok.injEq] at h
    subst h
    simp [ih hs]
  | case4 c cs kind more hm n hs ih =>
    rw [scan, hm] at h
    simp [hs] at h

end Piece

end Recast
