import Recast.Text.LineTable

/-!
# Source texts

A source text, cut and measured by byte offsets. `Source.slice?` succeeds
exactly on spans whose two ends stand between characters; `Source.position`
turns an offset into a line and a column, both counted from one, the column in
characters, by looking the line up in the table of the text.
-/

namespace Recast

/-- The number of bytes of a run of characters in UTF-8. -/
def utf8Length (cs : List Char) : Nat := cs.foldr (fun c n => c.utf8Size + n) 0

@[simp] theorem utf8Length_nil : utf8Length [] = 0 := rfl

@[simp] theorem utf8Length_cons (c : Char) (cs : List Char) :
    utf8Length (c :: cs) = c.utf8Size + utf8Length cs := rfl

@[simp] theorem utf8Length_append (as bs : List Char) :
    utf8Length (as ++ bs) = utf8Length as + utf8Length bs := by
  induction as with
  | nil => simp
  | cons c cs ih => simp [ih, Nat.add_assoc]

/-- Splits off the first `n` bytes, if they end between two characters. -/
def splitBytes? : Nat → List Char → Option (List Char × List Char)
  | 0, cs => some ([], cs)
  | _ + 1, [] => none
  | n + 1, c :: cs =>
    if c.utf8Size ≤ n + 1 then
      (splitBytes? (n + 1 - c.utf8Size) cs).map fun (front, rest) => (c :: front, rest)
    else none

/-- What is split off and what is left make up the whole. -/
theorem eq_append_of_splitBytes? {n : Nat} {cs front rest : List Char}
    (h : splitBytes? n cs = some (front, rest)) : cs = front ++ rest ∧ utf8Length front = n := by
  induction cs generalizing n front with
  | nil =>
    cases n with
    | zero => simp_all [splitBytes?]
    | succ n => simp [splitBytes?] at h
  | cons c cs ih =>
    cases n with
    | zero => simp_all [splitBytes?]
    | succ n =>
      rw [splitBytes?] at h
      split at h
      · rename_i hc
        obtain ⟨⟨f, r⟩, hs, he⟩ := Option.map_eq_some_iff.mp h
        obtain ⟨rfl, rfl⟩ := Prod.mk.inj he
        obtain ⟨h1, h2⟩ := ih hs
        exact ⟨by rw [h1, List.cons_append], by rw [utf8Length_cons, h2]; omega⟩
      · simp at h

/-- A run of whole characters can be split off. -/
theorem splitBytes?_append (front rest : List Char) :
    splitBytes? (utf8Length front) (front ++ rest) = some (front, rest) := by
  induction front with
  | nil => simp [splitBytes?]
  | cons c cs ih =>
    have hc := c.utf8Size_pos
    rw [utf8Length_cons, List.cons_append]
    obtain ⟨n, hn⟩ : ∃ n, c.utf8Size + utf8Length cs = n + 1 :=
      ⟨c.utf8Size + utf8Length cs - 1, by omega⟩
    rw [hn, splitBytes?, if_pos (by omega)]
    have : n + 1 - c.utf8Size = utf8Length cs := by omega
    rw [this, ih]
    rfl

/-- A text that spans refer to. -/
structure Source where
  text : String
  deriving Repr, DecidableEq, Inhabited

namespace Source

/-- The characters of the text. -/
def chars (s : Source) : List Char := s.text.toList

/-- The length in bytes. -/
def size (s : Source) : Nat := s.text.utf8ByteSize

/-- The text of a span, if the span is a range of the text. -/
def slice? (s : Source) (span : Span) : Option String :=
  if span.start ≤ span.stop then do
    let (_, rest) ← splitBytes? span.start s.chars
    let (front, _) ← splitBytes? (span.stop - span.start) rest
    return String.ofList front
  else none

/-! ## Lines and columns -/

/-- The bytes of the text. -/
def bytes (s : Source) : List UInt8 := s.text.toByteArray.data.toList

/-- Where the lines of the text begin. -/
def lines (s : Source) : LineTable := .build s.bytes

/-- The line and the column of an offset. An offset past the end is taken as
the end; an offset inside a character is in the first column. -/
def position (s : Source) (offset : Nat) : Nat × Nat :=
  let line := ordinal (s.lines.index offset)
  let column := match s.slice? ⟨s.lines.start (line - 1).toNat, min offset s.size⟩ with
    | some front => front.length
    | none => 0
  (line.toNat, (ordinal column).toNat)

end Source

end Recast
