import Recast.Lexis.LetterTable

/-!
# The characters of names

A name begins with a letter or `_`, and goes on with letters, marks, digits or
`_`. Letters are those of Unicode.
-/

namespace Recast

namespace Letter

/-- A code point lies in one of the closed ranges. -/
def inRanges (ranges : Array (Nat × Nat)) (n : Nat) : Bool :=
  ranges.any fun (low, high) => low ≤ n && n ≤ high

/-- A character that may begin a name. -/
def isInitial (c : Char) : Bool :=
  if c.val < 0x80 then c.isAlpha || c == '_' else inRanges initialRanges c.toNat

/-- A character that may stand in a name after the first one. -/
def isMedial (c : Char) : Bool :=
  if c.val < 0x80 then c.isAlphanum || c == '_'
  else inRanges initialRanges c.toNat || inRanges medialRanges c.toNat

/-- What may begin a name may also go on with it. -/
theorem isMedial_of_isInitial {c : Char} (h : isInitial c = true) : isMedial c = true := by
  unfold isInitial at h
  unfold isMedial
  split at h <;> simp_all [Char.isAlphanum]
  rcases h with h | h <;> simp [h]

end Letter

/-- A name: an initial letter, then medial ones. -/
def isName : List Char → Bool
  | [] => false
  | c :: cs => Letter.isInitial c && cs.all Letter.isMedial

end Recast
