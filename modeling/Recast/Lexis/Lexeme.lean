import Recast.Lexis.Piece
import Recast.Text.Source

/-!
# Lexemes

The pieces of a source that carry meaning, each with its place and with what
separates it from the lexeme before: nothing, blanks or comments, or a line
break. A line break inside a comment does not count. Nothing later looks at
blanks and comments again, so they matter through `Gap` alone.
-/

namespace Recast

/-- What separates a lexeme from the one before it. -/
inductive Gap where
  | none
  | blank
  | line
  deriving Repr, DecidableEq, Inhabited

/-- What a lexeme is. -/
inductive LexemeKind where
  | word (name : String)
  | literal (kind : LiteralKind) (text : String)
  | mark (m : Mark)
  deriving Repr, DecidableEq, Inhabited

/-- A word, literal or mark of a source. -/
structure Lexeme where
  kind : LexemeKind
  gap : Gap
  span : Span
  deriving Repr, DecidableEq, Inhabited

namespace Gap

/-- The gap after one more piece without meaning. -/
def extend (g : Gap) (p : Piece) : Gap :=
  if g = .line ∨ (p.kind = .blank ∧ p.text = ['\n']) then .line else .blank

end Gap

namespace Lexeme

/-- The meaning of a piece, if it has one. -/
def kindOf? (p : Piece) : Option LexemeKind :=
  match p.kind with
  | .blank | .comment => none
  | .word => some (.word (String.ofList p.text))
  | .literal k => some (.literal k (String.ofList p.text))
  | .mark m => some (.mark m)

/-- The lexemes among pieces that begin at an offset, after a gap. -/
def ofPieces (start : Nat) (gap : Gap) : List Piece → List Lexeme
  | [] => []
  | p :: ps =>
    let stop := start + utf8Length p.text
    match kindOf? p with
    | some kind => ⟨kind, gap, ⟨start, stop⟩⟩ :: ofPieces stop .none ps
    | none => ofPieces stop (gap.extend p) ps

end Lexeme

/-- The offset of the first piece that is not blank, or of the end. -/
def firstOffset (start : Nat) : List Piece → Nat
  | [] => start
  | p :: ps => if p.kind = .blank then firstOffset (start + utf8Length p.text) ps else start

end Recast
