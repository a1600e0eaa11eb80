import Recast.Syntax.Expr

/-!
# Scopes

A scope is the innermost of the nested levels that a block, a header or a
parameter list opens. Which of the enclosing levels can be seen from a level is
settled once, by the policy, when the level is opened: none of them under the
isolated policy, all of them under the chained one.

Opening a level never changes the levels around it, so leaving one is going
back to the scope from which it was opened.
-/

namespace Recast

/-- Whether a level sees the names of the levels around it. -/
inductive ScopePolicy where
  | isolated
  | chained
  deriving Repr, DecidableEq

namespace ScopePolicy

/-- Levels are isolated unless asked otherwise. -/
instance : Inhabited ScopePolicy := ⟨.isolated⟩

def text : ScopePolicy → String
  | .isolated => "isolated"
  | .chained => "chained"

/-- The policy with a given name. -/
def ofText? : String → Option ScopePolicy
  | "isolated" => some .isolated
  | "chained" => some .chained
  | _ => none

/-- What is said of a name that is no policy. -/
def unknownMessage (t : String) : String :=
  "unknown scope policy `" ++ t ++ "` (expected `isolated` or `chained`)"

theorem ofText?_text (p : ScopePolicy) : ofText? p.text = some p := by cases p <;> rfl

end ScopePolicy

/-- The names declared at the current level, the last one first, and the levels
around it that can be seen, the nearest first. -/
structure Scope where
  policy : ScopePolicy
  here : List String
  outer : List (List String)
  deriving Repr, DecidableEq, Inhabited

namespace Scope

/-- A scope of one empty level. -/
def root (policy : ScopePolicy) : Scope := ⟨policy, [], []⟩

/-- The scope of a level opened inside this one. -/
def child (s : Scope) : Scope :=
  match s.policy with
  | .isolated => ⟨s.policy, [], []⟩
  | .chained => ⟨s.policy, [], s.here :: s.outer⟩

/-- A name was declared at the current level. -/
def isDeclaredHere (s : Scope) (name : String) : Bool := s.here.contains name

/-- A name was declared at a level that can be seen. -/
def isDeclared (s : Scope) (name : String) : Bool :=
  s.isDeclaredHere name || s.outer.any (·.contains name)

/-- Declares a name at the current level, unless that level has it. The blank
name is always accepted and never recorded. -/
def declare? (s : Scope) (x : Ident) : Option Scope :=
  if x.isBlank then some s
  else if s.isDeclaredHere x.name then none
  else some { s with here := x.name :: s.here }

@[simp] theorem root_policy (p : ScopePolicy) : (root p).policy = p := rfl

@[simp] theorem child_policy (s : Scope) : s.child.policy = s.policy := by
  unfold child; split <;> rfl

@[simp] theorem child_here (s : Scope) : s.child.here = [] := by
  unfold child; split <;> rfl

/-- Of the names around it a new level sees all or none, by its policy. -/
theorem isDeclared_child {s : Scope} {n : String} :
    s.child.isDeclared n = true ↔ s.policy = .chained ∧ s.isDeclared n = true := by
  unfold child
  cases s.policy with
  | isolated => simp [isDeclared, isDeclaredHere]
  | chained => simp [isDeclared, isDeclaredHere]

theorem declare?_eq_none_iff {s : Scope} {x : Ident} :
    s.declare? x = none ↔ x.isBlank = false ∧ s.isDeclaredHere x.name = true := by
  unfold declare?
  split <;> simp_all

end Scope

end Recast
