/-!
# Spans

A span is a range of byte offsets into the UTF-8 form of a source text, the end
excluded. A span says nothing by itself: whether it cuts a given text is
`Source.slice?`.
-/

namespace Recast

/-- The bytes from `start` up to, not including, `stop`. -/
structure Span where
  start : Nat
  stop : Nat
  deriving Repr, DecidableEq, Inhabited

namespace Span

/-- The span from the start of one to the end of the other. -/
def through (a b : Span) : Span := ⟨a.start, b.stop⟩

/-- Offsets stay below this bound, so a source text has to be shorter. -/
def limit : Nat := 4294967296

/-- The empty span at the start of a text, for nodes that stand nowhere. -/
def none : Span := ⟨0, 0⟩

/-- `b` lies inside `a`. -/
def Encloses (a b : Span) : Prop := a.start ≤ b.start ∧ b.stop ≤ a.stop

theorem Encloses.refl (a : Span) : a.Encloses a := ⟨Nat.le_refl _, Nat.le_refl _⟩

theorem Encloses.trans {a b c : Span} (h : a.Encloses b) (k : b.Encloses c) : a.Encloses c :=
  ⟨Nat.le_trans h.1 k.1, Nat.le_trans k.2 h.2⟩

@[simp] theorem through_start (a b : Span) : (a.through b).start = a.start := rfl

@[simp] theorem through_stop (a b : Span) : (a.through b).stop = b.stop := rfl

end Span

end Recast
