import Recast.Proofs.Runs
import Recast.Proofs.Supported

/-!
# Refused expressions

Lowering an expression comes to some of the expressions inside it (`Expr.reached`), some of which
have no C++ form whatever their parts are (`Expr.refusal?`). It fails just if it comes to one of
these, and the first of them is the one that it reports; otherwise the text is put together from the
texts of the parts (`Expr.printed`). None of the three mentions lowering, and none depends on what
was lowered before (`first_refusal`).
-/

namespace Recast

namespace Expr

/-! ## What is reached, refused and printed -/

mutual

/-- The expressions that lowering comes to, each before those inside it, and operands from left to
right. Inside a call it comes to the first argument of a message only. -/
def reached : Expr → List Expr
  | .literal text span => [.literal text span]
  | .name x => [.name x]
  | .binary op l r span => .binary op l r span :: (l.reached ++ r.reached)
  | .unary op e span => .unary op e span :: e.reached
  | .paren e span => .paren e span :: e.reached
  | .call callee args span =>
    .call callee args span :: if callee.idiom?.isSome then firstReached args else []
  | .selector e field span => [.selector e field span]
  | .unsupported span => [.unsupported span]
termination_by structural e => e

def firstReached : List Expr → List Expr
  | [] => []
  | first :: _ => first.reached
termination_by structural args => args

end

/-- Why an expression has no C++ form, whatever its parts are. -/
def refusal? : Expr → Option (String → Cause)
  | .selector .. | .unsupported _ => some .unsupportedExpression
  | .unary op _ _ =>
    if op = .add ∨ op = .sub ∨ op = .not then none else some (.unsupportedOperator op)
  | .call callee [] _ => if callee.idiom?.isSome then some .malformedCall else none
  | .literal .. | .name _ | .binary .. | .paren .. | .call .. => none

mutual

/-- The text of an expression, from the texts of its parts. What lowering refuses has none. -/
def printed : Expr → String
  | .literal text _ => text
  | .name x => x.name
  | .binary op l r _ => l.printed ++ " " ++ op.text ++ " " ++ r.printed
  | .unary op e _ => op.text ++ e.printed
  | .paren e _ => "(" ++ e.printed ++ ")"
  | .call callee args _ =>
    if callee.idiom?.isSome then "QString(" ++ firstPrinted args ++ ")" else "unsupported"
  | .selector .. | .unsupported _ => ""
termination_by structural e => e

def firstPrinted : List Expr → String
  | [] => ""
  | first :: _ => first.printed
termination_by structural args => args

end

/-! ## The first refusal -/

variable {src : Source}

/-- The fault of an expression that is refused. -/
def fault? (src : Source) (e : Expr) : Option Fault :=
  e.refusal?.map fun cause => src.reject cause e.span

/-- The outcome of a lowering, given the first fault that it comes to, if there is one, and the text
that it yields otherwise. -/
inductive Outcome (text : String) : Option Fault → Recorded Target.Expr → Prop
  | refused {f : Fault} {lost : List Degradation} : Outcome text (some f) ⟨.error f, lost⟩
  | printed {x : Target.Expr} {lost : List Degradation} (h : x.text = text) :
      Outcome text none ⟨.ok x, lost⟩

/-- What comes after an operand can only be the first to fail if the operand does not. -/
theorem Outcome.bind {text text' : String} {first rest : Option Fault} {r : Recorded Target.Expr}
    {k : Target.Expr → Recorded Target.Expr} (h : Outcome text first r)
    (hk : ∀ x, x.text = text → Outcome text' rest (k x)) :
    Outcome text' (first.or rest) (r >>= k) := by
  rw [Recorded.bind_eq]
  cases h with
  | refused => exact .refused
  | @printed x _ h =>
    have hnext := hk x h
    dsimp only
    generalize k x = next at hnext ⊢
    cases hnext with
    | refused => exact .refused
    | printed h => exact .printed h

/-- What comes after the last operand does not fail. -/
theorem Outcome.bind_last {text text' : String} {first : Option Fault} {r : Recorded Target.Expr}
    {k : Target.Expr → Recorded Target.Expr} (h : Outcome text first r)
    (hk : ∀ x, x.text = text → Outcome text' none (k x)) :
    Outcome text' first (r >>= k) := by
  have hb := h.bind hk
  rwa [Option.or_none] at hb

theorem dropped_of_slices {span : Span} (hs : (src.slice? span).isSome = true) (n : Nat) :
    ∃ lost, dropped src span n = ⟨.ok (), lost⟩ := by
  obtain ⟨t, ht⟩ := Option.isSome_iff_exists.1 hs
  cases n with
  | zero => exact ⟨[], rfl⟩
  | succ n => exact ⟨_, dropped_ok.2 (.inr ⟨t, n.succ_pos, ht, rfl⟩)⟩

theorem placeholder_of_slices {span : Span} (hs : (src.slice? span).isSome = true) :
    ∃ lost, placeholder src span = ⟨.ok .placeholder, lost⟩ := by
  obtain ⟨t, ht⟩ := Option.isSome_iff_exists.1 hs
  exact ⟨_, placeholder_ok.2 ⟨t, ht, rfl, rfl⟩⟩

theorem isUnary_iff {op : Operator} :
    op.isUnary = true ↔ op = .add ∨ op = .sub ∨ op = .not := by
  cases op <;> decide

mutual

theorem lower_outcome : ∀ e : Expr, src.Slices e.spans →
    Outcome e.printed (e.reached.findSome? (fault? src)) (e.lower src)
  | .literal text span, _ | .name x, _ => .printed rfl
  | .selector e field span, _ | .unsupported span, _ => .refused
  | .paren e span, hs => by
    rw [spans, Source.slices_cons] at hs
    have hf : fault? src (.paren e span) = none := rfl
    rw [lower, reached, printed, List.findSome?_cons, hf]
    refine (lower_outcome e hs.2).bind_last fun x hx => .printed ?_
    rw [Target.Expr.text, hx]
  | .unary op e span, hs => by
    rw [spans, Source.slices_cons] at hs
    rw [lower, reached, printed, List.findSome?_cons, fault?, refusal?]
    by_cases ho : op.isUnary = true
    · rw [if_pos ho, if_pos (isUnary_iff.1 ho), Option.map_none]
      refine (lower_outcome e hs.2).bind_last fun x hx => .printed ?_
      rw [Target.Expr.text, hx]
    · rw [if_neg ho, if_neg (mt isUnary_iff.2 ho)]
      exact .refused
  | .binary op l r span, hs => by
    simp only [spans, Source.slices_cons, Source.slices_append] at hs
    have ho : op.isBinary = true := rfl
    have hf : fault? src (.binary op l r span) = none := rfl
    rw [lower, if_pos ho, reached, printed, List.findSome?_cons, hf, List.findSome?_append]
    refine (lower_outcome l hs.2.1).bind fun l' hl => ?_
    refine (lower_outcome r hs.2.2).bind_last fun r' hr => .printed ?_
    rw [Target.Expr.text, hl, hr]
  | .call callee args span, hs => by
    rw [spans, Source.slices_cons, Source.slices_append] at hs
    rw [lower, reached, printed]
    by_cases hc : callee.idiom?.isSome = true
    · rw [if_pos hc, if_pos hc, if_pos hc]
      exact lowerMessage_outcome hc args hs.1 hs.2.2
    · rw [if_neg hc, if_neg hc, if_neg hc]
      obtain ⟨lost, hp⟩ := placeholder_of_slices hs.1
      have hf : fault? src (.call callee args span) = none := by
        cases args <;> simp [fault?, refusal?, hc]
      rw [hp, List.findSome?_cons, hf]
      exact .printed rfl

theorem lowerMessage_outcome {callee : Expr} {span : Span} (hc : callee.idiom?.isSome = true) :
    ∀ args : List Expr, (src.slice? span).isSome = true → src.Slices (listSpans args) →
      Outcome ("QString(" ++ firstPrinted args ++ ")")
        ((.call callee args span :: firstReached args).findSome? (fault? src))
        (lowerMessage src span args)
  | [], _, _ => by
    rw [lowerMessage, List.findSome?_cons, fault?, refusal?, if_pos hc]
    exact .refused
  | first :: rest, hspan, hs => by
    rw [listSpans, Source.slices_append] at hs
    have hf : fault? src (.call callee (first :: rest) span) = none := rfl
    rw [lowerMessage, List.findSome?_cons, hf, firstReached, firstPrinted]
    refine (lower_outcome first hs.1).bind_last fun x hx => ?_
    obtain ⟨ds, hd⟩ := dropped_of_slices hspan rest.length
    rw [hd]
    exact .printed (by rw [Target.Expr.text, hx])

end

mutual

/-- What lowering comes to stands inside the expression. -/
theorem span_of_mem_reached : ∀ {e b : Expr}, b ∈ e.reached → b.span ∈ e.spans
  | .literal text span, b, hb | .name x, b, hb | .selector e field span, b, hb
  | .unsupported span, b, hb => by
    rw [reached, List.mem_singleton] at hb
    rw [hb, spans]
    exact List.mem_cons_self
  | .unary op e span, b, hb | .paren e span, b, hb => by
    rw [reached] at hb
    rcases List.mem_cons.1 hb with rfl | hb
    · exact List.mem_cons_self
    · exact List.mem_cons_of_mem _ (span_of_mem_reached hb)
  | .binary op l r span, b, hb => by
    rw [reached] at hb
    rcases List.mem_cons.1 hb with rfl | hb
    · exact List.mem_cons_self
    · refine List.mem_cons_of_mem _ (List.mem_append.2 ?_)
      exact (List.mem_append.1 hb).imp span_of_mem_reached span_of_mem_reached
  | .call callee args span, b, hb => by
    rw [reached] at hb
    rcases List.mem_cons.1 hb with rfl | hb
    · exact List.mem_cons_self
    · split at hb
      · exact List.mem_cons_of_mem _ (List.mem_append_right _ (span_of_mem_firstReached hb))
      · cases hb

theorem span_of_mem_firstReached :
    ∀ {args : List Expr} {b : Expr}, b ∈ firstReached args → b.span ∈ listSpans args
  | [], b, hb => by cases hb
  | first :: rest, b, hb => List.mem_append_left _ (span_of_mem_reached hb)

end

end Expr

/-- **The first refusal.** An expression whose spans are ranges of the source is refused, whatever
was lowered before it, just if lowering comes to an expression that is refused by itself. The
rejection is that of the first one: it has the cause and the place of that expression and quotes the
text there. If there is none, the text of the result is that of the expression. In either case the
scope is left as it was, and the same is added to what was lost. -/
theorem first_refusal {src : Source} {e : Expr} (hs : src.Slices e.spans) :
    (∀ p, (∃ f q, (Lowering.expr src e).runFrom p = (.error f, q)) ↔
      ∃ b ∈ e.reached, b.refusal?.isSome = true) ∧
    (∀ before b after cause, e.reached = before ++ b :: after →
      (∀ a ∈ before, a.refusal? = none) → b.refusal? = some cause →
      ∃ quote lost, src.slice? b.span = some quote ∧
        ∀ p, (Lowering.expr src e).runFrom p
          = (.error (.rejected ⟨cause quote, b.span⟩), { p with lost := p.lost ++ lost })) ∧
    ((∀ b ∈ e.reached, b.refusal? = none) →
      ∃ x lost, x.text = e.printed ∧
        ∀ p, (Lowering.expr src e).runFrom p = (.ok x, { p with lost := p.lost ++ lost })) := by
  have houtcome := Expr.lower_outcome e hs
  refine ⟨fun p => ?_, ?_, ?_⟩
  · have hsome : (e.reached.findSome? (Expr.fault? src)).isSome = true ↔
        ∃ b ∈ e.reached, b.refusal?.isSome = true := by
      simp only [List.findSome?_isSome_iff, Expr.fault?, Option.isSome_map]
    rw [← hsome, Lowering.expr_runFrom]
    generalize e.reached.findSome? (Expr.fault? src) = first, e.lower src = r at houtcome ⊢
    cases houtcome with
    | refused => simp
    | printed => simp
  · intro before b after cause heq hbefore hb
    obtain ⟨quote, hquote⟩ := Option.isSome_iff_exists.1
      (hs b.span (Expr.span_of_mem_reached (heq ▸ List.mem_append_right _ List.mem_cons_self)))
    have hfirst : e.reached.findSome? (Expr.fault? src)
        = some (.rejected ⟨cause quote, b.span⟩) := by
      refine List.findSome?_eq_some_iff.2 ⟨before, b, after, heq, ?_, fun a ha => ?_⟩
      · rw [Expr.fault?, hb, Option.map_some, Source.reject, hquote]
      · rw [Expr.fault?, hbefore a ha, Option.map_none]
    rw [hfirst] at houtcome
    simp only [Lowering.expr_runFrom]
    generalize e.lower src = r at houtcome
    cases houtcome with
    | @refused _ lost => exact ⟨quote, lost, hquote, fun p => rfl⟩
  · intro hnone
    have hfirst : e.reached.findSome? (Expr.fault? src) = none :=
      List.findSome?_eq_none_iff.2 fun b hb => by rw [Expr.fault?, hnone b hb, Option.map_none]
    rw [hfirst] at houtcome
    simp only [Lowering.expr_runFrom]
    generalize e.lower src = r at houtcome
    cases houtcome with
    | @printed x lost htext => exact ⟨x, lost, htext, fun p => rfl⟩

/-- `errors.New("m", p.q) == (^y + errors.New())`. -/
def Source.refused : Source := ⟨"errors.New(\"m\", p.q) == (^y + errors.New())"⟩

/-- The call of `errors.New` that starts at a place of that text. -/
def Expr.newAt (start : Nat) (args : List Expr) (stop : Nat) : Expr :=
  .call (.selector (.name ⟨"errors", ⟨start, start + 6⟩⟩) ⟨"New", ⟨start + 7, start + 10⟩⟩
    ⟨start, start + 10⟩) args ⟨start, stop⟩

/-- Its left side: a message that drops a selector. -/
def Expr.keptMessage : Expr :=
  newAt 0 [.literal "\"m\"" ⟨11, 14⟩, .selector (.name ⟨"p", ⟨16, 17⟩⟩) ⟨"q", ⟨18, 19⟩⟩ ⟨16, 19⟩] 20

/-- The whole of it: on the right, `^` comes before a message without an argument. -/
def Expr.refused : Expr :=
  .binary .equal keptMessage
    (.paren (.binary .add (.unary .xor (.name ⟨"y", ⟨26, 27⟩⟩) ⟨25, 27⟩) (newAt 30 [] 42) ⟨25, 42⟩)
      ⟨24, 43⟩) ⟨0, 43⟩

/-- The left side alone is accepted; the whole is refused for `^`. -/
theorem first_refusal_refused :
    Source.refused.Slices Expr.keptMessage.spans ∧ Source.refused.Slices Expr.refused.spans ∧
    (∃ x lost, x.text = "QString(\"m\")" ∧ ∀ p,
      (Lowering.expr .refused .keptMessage).runFrom p
        = (.ok x, { p with lost := p.lost ++ lost })) ∧
    (∃ b ∈ Expr.refused.reached, b.refusal?.isSome = true) ∧
    ∃ lost, ∀ p, (Lowering.expr .refused .refused).runFrom p
      = (.error (.rejected ⟨.unsupportedOperator .xor "^y", ⟨25, 27⟩⟩),
        { p with lost := p.lost ++ lost }) := by
  have hkept : Source.refused.Slices Expr.keptMessage.spans := by
    unfold Source.Slices
    decide +kernel
  have hs : Source.refused.Slices Expr.refused.spans := by
    unfold Source.Slices
    decide +kernel
  obtain ⟨hfails, hfirst, -⟩ := first_refusal hs
  have hslice : Source.refused.slice? ⟨25, 27⟩ = some "^y" := by decide +kernel
  obtain ⟨quote, lost', hquote, hrun⟩ := hfirst (Expr.refused.reached.take 5) _
    (Expr.refused.reached.drop 6) (.unsupportedOperator .xor) rfl (by decide) rfl
  obtain rfl : "^y" = quote := Option.some.inj (hslice.symm.trans hquote)
  obtain ⟨x, lost, htext, haccepted⟩ := (first_refusal hkept).2.2 (by decide)
  have hprinted : Expr.keptMessage.printed = "QString(\"m\")" := by decide +kernel
  exact ⟨hkept, hs, ⟨x, lost, htext.trans hprinted, haccepted⟩,
    (hfails ⟨.root .isolated, []⟩).1 ⟨_, _, hrun _⟩, lost', hrun⟩

end Recast
