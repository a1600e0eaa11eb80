import Recast.Proofs.Runs

/-!
# Traces

What a run passes through, in order: the pairs of `:=` that bind or reuse a name, each with the
scope that it finds, and the levels that it leaves, each with the scope that it leaves behind. A
trace is read off the runs of the parts of a statement, so the scopes in it are those of the
lowering itself. It is meant for runs that succeed.

Beside it stand the levels of the text: the fragments written directly in each level, in the order
in which the levels are closed.
-/

namespace Recast

open Target (Fragment)

/-- A point of a run. -/
inductive Event where
  /-- A pair of `:=` with a name that is not blank. -/
  | pair (name : String) (scope : Scope)
  /-- A level is left. -/
  | leave (scope : Scope)
  deriving Repr, DecidableEq, Inhabited

namespace Event

/-- The pair of `:=` at a point, if there is one. -/
def pair? : Event → Option (String × Scope)
  | .pair n s => some (n, s)
  | .leave _ => none

/-- The scope that is left at a point, if one is. -/
def leave? : Event → Option Scope
  | .pair .. => none
  | .leave s => some s

/-- The pairs of `:=` of a trace. -/
def pairs (es : List Event) : List (String × Scope) := es.filterMap pair?

/-- The scopes left in a trace. -/
def left (es : List Event) : List Scope := es.filterMap leave?

@[simp] theorem pairs_nil : pairs [] = [] := rfl

@[simp] theorem pairs_append (es fs : List Event) : pairs (es ++ fs) = pairs es ++ pairs fs :=
  List.filterMap_append

@[simp] theorem pairs_leave (s : Scope) : pairs [.leave s] = [] := rfl

@[simp] theorem left_nil : left [] = [] := rfl

@[simp] theorem left_append (es fs : List Event) : left (es ++ fs) = left es ++ left fs :=
  List.filterMap_append

@[simp] theorem left_leave (s : Scope) : left [.leave s] = [s] := rfl

end Event

/-- The progress after a step. -/
def Lowering.after {α : Type} (step : Lowering α) (p : Progress) : Progress := (step.runFrom p).2

theorem Lowering.after_of_ok {α : Type} {step : Lowering α} {p q : Progress} {a : α}
    (h : step.runFrom p = (.ok a, q)) : step.after p = q := by
  rw [Lowering.after, h]

/-! ## The trace of a run -/

/-- The points of the bindings of `:=`, from a given progress. -/
def bindingTrace (src : Source) : List (Ident × Expr) → Progress → List Event
  | [], _ => []
  | (x, rhs) :: pairs, p =>
    (if x.isBlank then [] else [.pair x.name p.scope])
      ++ bindingTrace src pairs ((lowerBinding src x rhs).after p)

/-- The points of a simple statement. -/
def Stmt.simpleTrace (src : Source) (p : Progress) : Stmt → List Event
  | .assign lhs .define rhs _ => bindingTrace src (((lhs.mapM Expr.name?).getD []).zip rhs) p
  | _ => []

mutual

/-- The points of a statement. -/
def Stmt.trace (src : Source) : Stmt → Progress → List Event
  | .ret .., _ | .unsupported _, _ => []
  | .assign lhs op rhs span, p => Stmt.simpleTrace src p (.assign lhs op rhs span)
  | .decl kind specs span, p => Stmt.simpleTrace src p (.decl kind specs span)
  | .step operand op span, p => Stmt.simpleTrace src p (.step operand op span)
  | .cond init test body other _, p =>
    let p₁ := (init.mapM (Stmt.lowerSimple src)).after p.inner
    let p₂ := (Lowering.expr src test).after p₁
    let p₃ := (body.lower src).after p₂
    let p₄ := (Stmt.lowerOther src other).after p₃
    init.elim [] (Stmt.simpleTrace src p.inner) ++ body.trace src p₂
      ++ Stmt.otherTrace src other p₃ ++ [.leave p₄.scope]
  | .loop init test post body _, p =>
    let p₁ := (init.mapM (Stmt.lowerSimple src)).after p.inner
    let p₂ := (test.mapM (Lowering.expr src)).after p₁
    let p₃ := (post.mapM (Stmt.lowerSimple src)).after p₂
    let p₄ := (body.lower src).after p₃
    init.elim [] (Stmt.simpleTrace src p.inner) ++ post.elim [] (Stmt.simpleTrace src p₂)
      ++ body.trace src p₃ ++ [.leave p₄.scope]
  | .block body, p => body.trace src p
termination_by structural s => s

/-- The points of the other branch of a conditional. -/
def Stmt.otherTrace (src : Source) : Option Stmt → Progress → List Event
  | some (.block body), p => body.trace src p
  | some (.cond none test body other _), p =>
    let p₁ := (Lowering.expr src test).after p
    let p₂ := (body.lower src).after p₁
    body.trace src p₁ ++ Stmt.otherTrace src other p₂
  | some (.cond (some init) test body other _), p =>
    let p₁ := (init.lowerSimple src).after p.inner
    let p₂ := (Lowering.expr src test).after p₁
    let p₃ := (body.lower src).after p₂
    let p₄ := (Stmt.lowerOther src other).after p₃
    init.simpleTrace src p.inner ++ body.trace src p₂ ++ Stmt.otherTrace src other p₃
      ++ [.leave p₄.scope]
  | _, _ => []
termination_by structural s => s

/-- The points of statements in order. -/
def Stmt.listTrace (src : Source) : List Stmt → Progress → List Event
  | [], _ => []
  | s :: ss, p => s.trace src p ++ Stmt.listTrace src ss ((s.lower src).after p)
termination_by structural ss => ss

/-- The points of a block, the last of which is that its level is left. -/
def Block.trace (src : Source) : Block → Progress → List Event
  | .mk ss _, p =>
    Stmt.listTrace src ss p.inner ++ [.leave ((Stmt.lowerList src ss).after p.inner).scope]
termination_by structural b => b

end

/-- The points of a function, to be run at the level of its parameters. -/
def Func.trace (src : Source) (f : Func) (p : Progress) : List Event :=
  f.body.elim [] (Block.trace src · ((lowerParams src f.params.fields).after p))

/-- A function with two blocks and a header: `x := 1; if y := x; y { x, _, z := 2, 3, 4 }`. -/
def Func.nested : Func :=
  let name (n : String) : Ident := ⟨n, .none⟩
  let lit (t : String) : Expr := .literal t .none
  let define (ns : List String) (es : List Expr) : Stmt :=
    .assign (ns.map fun n => .name (name n)) .define es .none
  { name := name "f", params := ⟨[], .none⟩, results := none, span := .none
    body := some <| .mk
      [ define ["x"] [lit "1"],
        .cond (some (define ["y"] [.name (name "x")])) (.name (name "y"))
          (.mk [define ["x", "_", "z"] [lit "2", lit "3", lit "4"]] .none) none .none ] .none }

/-! ## The levels of a text -/

namespace Target

/-- The fragments of a statement that stand directly in the level of the statement. -/
def Stmt.direct : Stmt → List Fragment
  | .simple fs => fs
  | _ => []

/-- The fragments that stand directly in a block. -/
def directOf (body : List Stmt) : List Fragment := body.flatMap Stmt.direct

@[simp] theorem directOf_nil : directOf [] = [] := rfl

@[simp] theorem directOf_cons (s : Stmt) (ss : List Stmt) :
    directOf (s :: ss) = s.direct ++ directOf ss := rfl

mutual

/-- The levels inside a statement, each as the fragments that stand directly in it. A level comes
after those inside it; the clauses of a header are one level. -/
def Stmt.levels : Stmt → List (List Fragment)
  | .ret _ | .simple _ => []
  | .cond init _ body other =>
    Stmt.listLevels body ++ [directOf body] ++ other.levels ++ [init.getD []]
  | .loop init _ post body => Stmt.listLevels body ++ [directOf body] ++ [init ++ post]
  | .block body => Stmt.listLevels body ++ [directOf body]
termination_by structural s => s

def Stmt.listLevels : List Stmt → List (List Fragment)
  | [] => []
  | s :: ss => s.levels ++ Stmt.listLevels ss
termination_by structural ss => ss

def Branch.levels : Branch → List (List Fragment)
  | .none => []
  | .block body => Stmt.listLevels body ++ [directOf body]
  | .chain _ body other => Stmt.listLevels body ++ [directOf body] ++ other.levels
  | .wrapped init _ body other =>
    Stmt.listLevels body ++ [directOf body] ++ other.levels ++ [init]
termination_by structural b => b

end

/-- The levels of a block, the last of which is its own. -/
def blockLevels (body : List Stmt) : List (List Fragment) :=
  Stmt.listLevels body ++ [directOf body]

end Target

end Recast
