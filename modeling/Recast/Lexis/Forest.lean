import Recast.Lexis.Lexeme

/-!
# Forests

Lexemes with their brackets matched: a leaf is a lexeme that is no bracket, a
group is a pair of brackets with the trees between them. What stands inside a
group can end neither the group nor a phrase around it, so phrases are read
from one list of trees at a time.
-/

namespace Recast

/-- A lexeme that is no bracket, or a matched pair of brackets. A group keeps
the gap before each of its brackets. -/
inductive Tree where
  | leaf (lexeme : Lexeme)
  | group (bracket : Bracket) (gap : Gap) (inner : List Tree) (closingGap : Gap) (span : Span)
  deriving Repr, Inhabited

/-- Trees that stand side by side. -/
abbrev Forest := List Tree

namespace Tree

def span : Tree → Span
  | .leaf l => l.span
  | .group _ _ _ _ s => s

def gap : Tree → Gap
  | .leaf l => l.gap
  | .group _ g _ _ _ => g

mutual

/-- How deep brackets are nested in a tree. -/
def depth : Tree → Nat
  | .leaf _ => 0
  | .group _ _ inner _ _ => depthList inner + 1
termination_by structural t => t

/-- How deep brackets are nested in a forest. -/
def depthList : List Tree → Nat
  | [] => 0
  | t :: ts => max t.depth (depthList ts)
termination_by structural ts => ts

end

end Tree

namespace Forest

/-- A bracket that is still open: its lexeme, and the trees before it at its
own level, the last one first. -/
structure Open where
  bracket : Bracket
  lexeme : Lexeme
  before : List Tree

/-- Matches brackets, given those that are open and the trees since the
innermost of them, the last one first. Fails at the bracket that has no
partner. -/
def build : List Open → List Tree → List Lexeme → Except Span Forest
  | [], done, [] => .ok done.reverse
  | o :: _, _, [] => .error o.lexeme.span
  | opened, done, l :: ls =>
    match l.kind with
    | .mark (.opening b) => build (⟨b, l, done⟩ :: opened) [] ls
    | .mark (.closing b) =>
      match opened with
      | [] => .error l.span
      | o :: os =>
        if o.bracket = b then
          let group := .group b o.lexeme.gap done.reverse l.gap (o.lexeme.span.through l.span)
          build os (group :: o.before) ls
        else .error l.span
    | _ => build opened (.leaf l :: done) ls

/-- The forest of a list of lexemes, if every bracket has its partner. -/
def ofLexemes (ls : List Lexeme) : Except Span Forest := build [] [] ls

end Forest

end Recast
