import Recast.Text.Span

/-!
# Line tables

The offsets at which the lines of a text begin, found in one pass over its bytes. The line of an
offset is looked up in the table by halving.
-/

namespace Recast

/-- The offset at which each line of a text begins, from the first line on. -/
structure LineTable where
  starts : Array Nat
  deriving Repr, DecidableEq, Inhabited

namespace LineTable

/-- The byte that ends a line. -/
def newline : UInt8 := 10

/-- An offset as the table holds it. One that is too large is replaced by the largest. -/
def held (offset : Nat) : Nat := min offset (Span.limit - 1)

/-- Adds to the table what begins after the newlines of the bytes from offset `i` on. -/
def scan (starts : Array Nat) : (i : Nat) → List UInt8 → Array Nat
  | _, [] => starts
  | i, b :: bytes => scan (if b = newline then starts.push (held (i + 1)) else starts) (i + 1) bytes

/-- The lines of the text of these bytes. -/
def build (bytes : List UInt8) : LineTable := ⟨scan #[0] 0 bytes⟩

/-- The start of a line, counted from zero. -/
def start (t : LineTable) (index : Nat) : Nat := t.starts.getD index 0

/-- Halves the `size` lines from `base` on until one is left. Of two halves the upper one is taken
if it does not begin after the offset. -/
def narrow (t : LineTable) (offset base size : Nat) : Nat :=
  if size ≤ 1 then base
  else
    let middle := base + size / 2
    t.narrow offset (if offset < t.start middle then base else middle) (size - size / 2)
  termination_by size

/-- The index of a line that begins at the offset, or else the index that such a line would get. -/
def search (t : LineTable) (offset : Nat) : Except Nat Nat :=
  if t.starts.size = 0 then .error 0
  else
    let index := t.narrow offset 0 t.starts.size
    if t.start index = offset then .ok index
    else .error (if t.start index < offset then index + 1 else index)

/-- The index of the line that the offset is in. -/
def index (t : LineTable) (offset : Nat) : Nat :=
  match t.search offset with
  | .ok found => found
  | .error place => place - 1

end LineTable

/-- The number, counted from one, of what has this index, in 32 bits. An index that does not fit is
replaced. The largest that does fit is not, and the sum goes around to zero (where additions are
checked, it stops the program). -/
def ordinal (index : Nat) : UInt32 :=
  (if index < Span.limit then .ofNat index else .ofNat (Span.limit - 2)) + 1

end Recast
