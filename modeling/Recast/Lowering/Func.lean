import Recast.Lowering.Stmt
import Recast.Syntax.File

/-!
# Lowering functions

The parts of a function are checked in the order results, parameters, body. The
parameters form the outermost level, inside which the body opens its own.
-/

namespace Recast

/-- The result type. More than one result has no C++ counterpart. -/
def FieldList.lowerResult (src : Source) (results : FieldList) :
    Except Fault (Option Primitive) :=
  if results.arity > 1 then .error (src.reject .multipleReturnTypes results.span)
  else
    match results.fields with
    | [] => .ok none
    | field :: _ => some <$> field.type.lower src

/-- The names of one field, each declared. -/
def lowerParamNames (type : Primitive) : List Ident → Lowering (List (Primitive × String))
  | [] => return []
  | x :: names => do
    Lowering.declare x
    let params ← lowerParamNames type names
    return (type, x.name) :: params

/-- One group of parameters. -/
def Field.lowerParam (src : Source) (field : Field) : Lowering (List (Primitive × String)) := do
  let type ← Lowering.lift (field.type.lower src)
  if field.names.isEmpty then Lowering.reject src .missingParameterName field.span
  else lowerParamNames type field.names

/-- The parameters, field by field. -/
def lowerParams (src : Source) : List Field → Lowering (List (Primitive × String))
  | [] => return []
  | field :: fields => do
    let ps ← field.lowerParam src
    let qs ← lowerParams src fields
    return ps ++ qs

/-- The C++ form of a function, to be run at the level of its parameters. -/
def Func.lowerParts (src : Source) (f : Func) : Lowering Target.Func := do
  let result ← Lowering.lift (f.results.elim (.ok none) (FieldList.lowerResult src))
  let params ← lowerParams src f.params.fields
  let body ← f.body.elim (pure []) (Block.lower src)
  return ⟨result, f.name.name, params, body⟩

/-- A lowered function: its C++ form, and what was lost. -/
structure Func.Lowered where
  func : Target.Func
  lost : List Degradation

namespace Func.Lowered

def text (l : Func.Lowered) : String := l.func.text

/-- The text only approximates the source. -/
def isDegraded (l : Func.Lowered) : Bool := !l.lost.isEmpty

end Func.Lowered

/-- The C++ form of a function, by itself. -/
def Func.lower (src : Source) (policy : ScopePolicy) (f : Func) : Except Fault Func.Lowered :=
  match (f.lowerParts src).runFrom ⟨.root policy, []⟩ with
  | (.ok func, p) => .ok ⟨func, p.lost⟩
  | (.error fault, _) => .error fault

end Recast
