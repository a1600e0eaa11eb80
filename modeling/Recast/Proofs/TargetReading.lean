import Recast.Proofs.TargetTokens

/-!
# How C++ groups an expression

A reader of C++ expressions (`Expr.ofText?`), which takes one token after the other. It keeps the
chain of operands that it is in and, outside every bracket that is open, what stands before the
bracket; an operand goes to its place by the strengths of the operators, operators of one strength
to the left, and prefix operators before all others. What the reader finds has the tokens that it
was given and is grouped by strength, and an expression that is so grouped is found
(`Expr.ofTokens?_eq_some_iff`).
-/

namespace Recast.Target

open Operator (targetStrength)

/-- An operator that may stand before an operand in C++. -/
def isPrefix : Operator → Bool
  | .add | .sub | .not | .mul | .and | .inc | .dec => true
  | _ => false

/-! ## The reader -/

/-- What stands before an operand that is still to come: perhaps a chain and an operator, then
prefix operators, the last of them first. -/
structure Frame where
  chain? : Option (Expr × Operator)
  signs : List Operator

namespace Frame

/-- Nothing stands before. -/
def empty : Frame := ⟨none, []⟩

/-- The operand with its prefix operators. -/
def signed (f : Frame) (x : Expr) : Expr := f.signs.foldl (fun x op => .unary op x) x

/-- The operand comes: the chain that it makes with what stands before it. -/
def put (f : Frame) (x : Expr) : Expr :=
  match f.chain? with
  | none => f.signed x
  | some (chain, op) => chain.extend targetStrength op (f.signed x)

end Frame

/-- Where the reader is: before an operand, or after one, at the end of a chain. The frames of the
brackets around come after, the innermost first. -/
inductive Reading where
  | before (frame : Frame) (outer : List Frame)
  | after (chain : Expr) (outer : List Frame)

namespace Reading

/-- The reader takes a token. -/
def step : Reading → Token → Option Reading
  | .before f fs, .name n => some (.after (f.put (.name n)) fs)
  | .before f fs, .literal t => some (.after (f.put (.literal t)) fs)
  | .before f fs, .operator op =>
    if isPrefix op then some (.before { f with signs := op :: f.signs } fs) else none
  | .before f fs, .opening => some (.before .empty (f :: fs))
  | .after x fs, .operator op =>
    if 0 < targetStrength op then some (.before ⟨some (x, op), []⟩ fs) else none
  | .after x (f :: fs), .closing => some (.after (f.put (.paren x)) fs)
  | _, _ => none

/-- The reader takes tokens in turn. -/
def run (s : Reading) (ts : List Token) : Option Reading := ts.foldlM step s

end Reading

namespace Expr

/-- The expression that C++ finds in tokens. -/
def ofTokens? (ts : List Token) : Option Expr :=
  match (Reading.before .empty []).run ts with
  | some (.after x []) => some x
  | _ => none

/-- The expression that C++ finds in a text. -/
def ofText? (t : String) : Option Expr := (Token.scan t.toList).bind ofTokens?

end Expr

/-! ## What the reader has taken -/

theorem Expr.tokens_extend {strength : Operator → Nat} {op : Operator} {u : Expr} :
    ∀ x : Expr, (x.extend strength op u).tokens = x.tokens ++ .operator op :: u.tokens
  | .binary op' l r => by
    unfold Expr.extend
    split
    · simp [Expr.tokens, tokens_extend r]
    · rfl
  | .literal _ | .name _ | .unary _ _ | .paren _ | .message _ | .placeholder => rfl

namespace Frame

/-- The tokens that stand before an operand. -/
def tokens (f : Frame) : List Token :=
  (match f.chain? with
    | none => []
    | some (x, op) => x.tokens ++ [.operator op]) ++ f.signs.reverse.map .operator

theorem tokens_signed (f : Frame) (x : Expr) :
    (f.signed x).tokens = f.signs.reverse.map .operator ++ x.tokens := by
  obtain ⟨chain?, signs⟩ := f
  unfold signed
  induction signs generalizing x with
  | nil => rfl
  | cons op signs ih =>
    rw [List.foldl_cons, ih]
    simp [Expr.tokens]

theorem tokens_put (f : Frame) (x : Expr) : (f.put x).tokens = f.tokens ++ x.tokens := by
  unfold put tokens
  split
  · simp [tokens_signed]
  · simp [Expr.tokens_extend, tokens_signed]

/-- The chain before an operand is grouped. -/
def Grouped (f : Frame) : Prop := ∀ p ∈ f.chain?, p.1.Grouped targetStrength

theorem signed_grouped {f : Frame} {x : Expr} (ht : x.top? = none)
    (hx : x.Grouped targetStrength) :
    (f.signed x).top? = none ∧ (f.signed x).Grouped targetStrength := by
  obtain ⟨chain?, signs⟩ := f
  unfold signed
  induction signs generalizing x with
  | nil => exact ⟨ht, hx⟩
  | cons op signs ih => exact ih (x := .unary op x) rfl hx

theorem Grouped.put {f : Frame} {x : Expr} (hf : f.Grouped) (ht : x.top? = none)
    (hx : x.Grouped targetStrength) : (f.put x).Grouped targetStrength := by
  obtain ⟨ht', hx'⟩ := signed_grouped (f := f) ht hx
  unfold Frame.put
  split
  · exact hx'
  · rename_i chain op hc
    exact Expr.Grouped.extend hx' ht' (hf (chain, op) hc)

end Frame

namespace Reading

/-- The tokens before and in the brackets that are open. -/
def outerTokens : List Frame → List Token
  | [] => []
  | f :: fs => outerTokens fs ++ f.tokens ++ [.opening]

/-- The tokens that the reader has taken. -/
def tokens : Reading → List Token
  | .before f fs => outerTokens fs ++ f.tokens
  | .after x fs => outerTokens fs ++ x.tokens

/-- Everything that the reader keeps is grouped. -/
def Grouped : Reading → Prop
  | .before f fs => f.Grouped ∧ ∀ g ∈ fs, g.Grouped
  | .after x fs => x.Grouped targetStrength ∧ ∀ g ∈ fs, g.Grouped

variable {s s' : Reading} {t : Token} {ts : List Token}

theorem tokens_step (h : s.step t = some s') : s'.tokens = s.tokens ++ [t] := by
  unfold step at h
  split at h
  · cases h
    simp [tokens, Frame.tokens_put, Expr.tokens]
  · cases h
    simp [tokens, Frame.tokens_put, Expr.tokens]
  · split at h
    · cases h
      simp [tokens, Frame.tokens]
    · cases h
  · cases h
    simp [tokens, outerTokens, Frame.tokens, Frame.empty]
  · split at h
    · cases h
      simp [tokens, Frame.tokens]
    · cases h
  · cases h
    simp [tokens, outerTokens, Frame.tokens_put, Expr.tokens]
  · cases h

theorem Grouped.step (hs : s.Grouped) (h : s.step t = some s') : s'.Grouped := by
  unfold Reading.step at h
  split at h
  · cases h
    exact ⟨hs.1.put rfl trivial, hs.2⟩
  · cases h
    exact ⟨hs.1.put rfl trivial, hs.2⟩
  · split at h
    · cases h
      exact hs
    · cases h
  · cases h
    exact ⟨by simp [Frame.Grouped, Frame.empty], List.forall_mem_cons.2 hs⟩
  · split at h
    · cases h
      exact ⟨by simpa [Frame.Grouped] using hs.1, hs.2⟩
    · cases h
  · cases h
    obtain ⟨hf, hfs⟩ := List.forall_mem_cons.1 hs.2
    exact ⟨hf.put rfl hs.1, hfs⟩
  · cases h

theorem run_cons (s : Reading) (t : Token) (ts : List Token) :
    s.run (t :: ts) = (s.step t).bind fun s' => s'.run ts :=
  List.foldlM_cons

theorem run_append (s : Reading) (ts us : List Token) :
    s.run (ts ++ us) = (s.run ts).bind fun s' => s'.run us :=
  List.foldlM_append

/-- A run takes its tokens and keeps everything grouped. -/
theorem Grouped.run (hs : s.Grouped) (h : s.run ts = some s') :
    s'.tokens = s.tokens ++ ts ∧ s'.Grouped := by
  induction ts generalizing s with
  | nil =>
    cases h
    exact ⟨(List.append_nil _).symm, hs⟩
  | cons t ts ih =>
    rw [run_cons] at h
    obtain ⟨s₁, hstep, hrun⟩ := Option.bind_eq_some_iff.1 h
    obtain ⟨ht, hg⟩ := ih (hs.step hstep) hrun
    exact ⟨by rw [ht, tokens_step hstep, List.append_assoc]; rfl, hg⟩

/-! ## What the reader finds -/

theorem isPrefix_of_isUnary {op : Operator} (h : op.isUnary = true) : isPrefix op = true := by
  cases op <;> first
    | rfl
    | cases h

/-- The reader takes the tokens of an expression as its chain, operand after operand. In brackets
the chain begins anew, and is rebuilt as it was if it is grouped. -/
theorem run_tokens : ∀ {x : Expr}, x.Formed targetStrength → x.Grouped targetStrength →
    ∀ (f : Frame) (fs : List Frame),
      (Reading.before f fs).run x.tokens
        = some (.after ((f.put x.first).extendAll targetStrength x.rest) fs)
  | .literal t, _, _, f, fs => rfl
  | .name n, _, _, f, fs => rfl
  | .binary op l r, hf, hg, f, fs => by
    obtain ⟨hop, hlf, hrf⟩ := hf
    obtain ⟨-, -, hlg, hrg⟩ := hg
    have hstep : ∀ x, (Reading.after x fs).step (.operator op)
        = some (.before ⟨some (x, op), []⟩ fs) := fun x => if_pos hop
    rw [Expr.tokens, run_append, run_tokens hlf hlg, Option.bind_some, run_cons, hstep,
      Option.bind_some, run_tokens hrf hrg, Expr.first, Expr.rest, Expr.extendAll, Expr.extendAll,
      Expr.extendAll, List.foldl_append]
    rfl
  | .unary op x, hf, hg, f, fs => by
    obtain ⟨hop, htop, hxf⟩ := hf
    have hstep : (Reading.before f fs).step (.operator op)
        = some (.before { f with signs := op :: f.signs } fs) := if_pos (isPrefix_of_isUnary hop)
    rw [Expr.tokens, run_cons, hstep, Option.bind_some, run_tokens hxf hg,
      Expr.first_of_top?_eq_none htop, Expr.rest_of_top?_eq_none htop]
    rfl
  | .paren x, hf, hg, f, fs => by
    have hopening : (Reading.before f fs).step .opening = some (.before .empty (f :: fs)) := rfl
    have hinner : (Frame.empty.put x.first).extendAll targetStrength x.rest = x :=
      Expr.Grouped.extendAll_rest (x := x) hg
    rw [Expr.tokens, run_cons, hopening, Option.bind_some, run_append, run_tokens (x := x) hf hg,
      hinner, Option.bind_some]
    rfl
  | .message _, hf, _, _, _ | .placeholder, hf, _, _, _ => hf.elim

end Reading

/-- C++ finds an expression in tokens if and only if these are its tokens and it is grouped by the
strengths of C++. -/
theorem Expr.ofTokens?_eq_some_iff {x : Expr} (hf : x.Formed targetStrength) {ts : List Token} :
    ofTokens? ts = some x ↔ ts = x.tokens ∧ x.Grouped targetStrength := by
  have hstart : (Reading.before .empty []).Grouped :=
    ⟨by simp [Frame.Grouped, Frame.empty], by simp⟩
  constructor
  · intro h
    unfold ofTokens? at h
    split at h
    · rename_i y hrun
      cases h
      obtain ⟨ht, hg⟩ := hstart.run hrun
      exact ⟨ht.symm, hg.1⟩
    · cases h
  · rintro ⟨rfl, hg⟩
    have hinner : (Frame.empty.put x.first).extendAll targetStrength x.rest = x :=
      hg.extendAll_rest
    rw [ofTokens?, Reading.run_tokens hf hg, hinner]

end Recast.Target
