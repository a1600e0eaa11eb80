import Recast.Proofs.SoundFiles
import Recast.Proofs.TargetReading

/-!
# Expressions that C++ groups otherwise

An expression is written without parentheses of its own, so what C++ makes of it depends on the
strengths that C++ gives to the operators. `File.grouping_kept_iff` says when the operator tree of
the source is found again: nested operators have to be ordered by C++ as they are nested, no two
signs may run together, and every operand has to be one to C++. The first two fail for expressions
that are lowered without a word (`File.grouping_lost`).
-/

namespace Recast

open Operator (targetStrength)

/-- C++ finds an expression in its text if and only if each operand is one to C++, no signs run
together, and the expression is grouped by the strengths of C++. -/
theorem Target.Expr.ofText?_text_iff {x : Target.Expr} (hf : x.Formed targetStrength) :
    ofText? x.text = some x ↔
      x.OperandsStand ∧ x.SignsApart ∧ x.Grouped targetStrength := by
  constructor
  · intro h
    obtain ⟨ts, hscan, hread⟩ := Option.bind_eq_some_iff.1 h
    obtain ⟨rfl, hg⟩ := (ofTokens?_eq_some_iff hf).1 hread
    obtain ⟨ho, hs⟩ := (scan_text_iff hf).1 hscan
    exact ⟨ho, hs, hg⟩
  · rintro ⟨ho, hs, hg⟩
    have hscan := (scan_text_iff hf).2 ⟨ho, hs⟩
    exact Option.bind_eq_some_iff.2 ⟨x.tokens, hscan, (ofTokens?_eq_some_iff hf).2 ⟨rfl, hg⟩⟩

/-- `&^` is the only operator between operands that C++ does not know. -/
theorem Operator.targetStrength_pos {op : Operator} (h : 0 < op.strength) (ha : op ≠ .andNot) :
    0 < op.targetStrength := by
  revert h ha
  cases op <;> decide

theorem Expr.tree_formed : ∀ {e : Expr}, e.tree.Formed Operator.strength →
    (∀ c ∈ e.parts, c.top? ≠ some .andNot) → e.tree.Formed targetStrength
  | .literal .., _, _ | .name _, _, _ => trivial
  | .binary op l r span, h, ha => by
    obtain ⟨hop, hl, hr⟩ := h
    obtain ⟨htop, ha⟩ := List.forall_mem_cons.1 ha
    obtain ⟨hal, har⟩ := List.forall_mem_append.1 ha
    exact ⟨Operator.targetStrength_pos hop fun he => htop (congrArg some he), tree_formed hl hal,
      tree_formed hr har⟩
  | .unary op e span, h, ha =>
    ⟨h.1, h.2.1, tree_formed h.2.2 (List.forall_mem_cons.1 ha).2⟩
  | .paren e span, h, ha => tree_formed (e := e) h (List.forall_mem_cons.1 ha).2
  | .call .., h, _ | .selector .., h, _ | .unsupported _, h, _ => h.elim

namespace File

/-- An expression of a file that holds no call and no `&^`, and that can be lowered, is found again
by C++ with its operators, operands and nesting if and only if each operand is one to C++, no signs
run together, and all nested operators are ordered by C++ as they are nested. -/
theorem grouping_kept_iff {src : Source} {file : File} (hread : read src = .ok file) {e₀ e : Expr}
    (he₀ : e₀ ∈ file.exprs) (he : e ∈ e₀.parts) (hcalls : ∀ c ∈ e.parts, c.isCall = false)
    (handNot : ∀ c ∈ e.parts, c.top? ≠ some .andNot) {x : Target.Expr} {ds : List Degradation}
    (hlower : e.lower src = ⟨.ok x, ds⟩) :
    Target.Expr.ofText? x.text = some e.tree ↔
      e.tree.OperandsStand ∧ e.tree.SignsApart ∧ e.tree.Grouped targetStrength := by
  obtain ⟨us, -, hmade⟩ := madeOf_of_read hread he₀ he
  obtain ⟨rfl, hf, -⟩ := hmade.lowered hcalls hlower
  exact Target.Expr.ofText?_text_iff (Expr.tree_formed hf handNot)

/-- A text whose one expression C++ groups as it is read. -/
def kept : Source := ⟨"func f(a, b int) int \x7b\n\treturn -(a - 0x1e) * 2 << b\n\x7d\n"⟩

theorem grouping_kept_iff_kept :
    ∃ (file : File) (e : Expr) (x : Target.Expr) (ds : List Degradation),
      read kept = .ok file ∧ e ∈ file.exprs ∧ (∀ c ∈ e.parts, c.isCall = false) ∧
      (∀ c ∈ e.parts, c.top? ≠ some .andNot) ∧ e.lower kept = ⟨.ok x, ds⟩ ∧
      Target.Expr.ofText? x.text = some e.tree ∧ e.tree.OperandsStand ∧ e.tree.SignsApart ∧
      e.tree.Grouped targetStrength := by
  let e : Expr :=
    .binary .shl
      (.binary .mul
        (.unary .sub
          (.paren (.binary .sub (.name ⟨"a", ⟨33, 34⟩⟩) (.literal "0x1e" ⟨37, 41⟩) ⟨33, 41⟩) ⟨32, 42⟩)
          ⟨31, 42⟩)
        (.literal "2" ⟨45, 46⟩) ⟨31, 46⟩)
      (.name ⟨"b", ⟨50, 51⟩⟩) ⟨31, 51⟩
  have hexprs : (read kept).toOption.map exprs = some [e] := by decide +kernel
  obtain ⟨file, hread, he⟩ := Option.map_eq_some_iff.1 hexprs
  have hread' := eq_ok_of_toOption hread
  have hmem : e ∈ file.exprs := by simp [he]
  have hcalls : ∀ c ∈ e.parts, c.isCall = false := by decide +kernel
  have handNot : ∀ c ∈ e.parts, c.top? ≠ some .andNot := by decide +kernel
  have hlower : e.lower kept = ⟨.ok e.tree, []⟩ := rfl
  have hkept : Target.Expr.ofText? e.tree.text = some e.tree := by decide +kernel
  exact ⟨file, e, e.tree, [], hread', hmem, hcalls, handNot, hlower, hkept,
    (grouping_kept_iff hread' hmem (Expr.self_mem_parts e) hcalls handNot hlower).1 hkept⟩

/-- A text whose one expression C++ groups in another way. -/
def lost : Source :=
  ⟨"func f(a int, b int, c int) bool \x7b\n\treturn a & b == c\n\x7d\n"⟩

/-- In the source `&` holds its operands more tightly than `==`, and in C++ less tightly. The
expression is written all the same, and C++ compares first. -/
theorem grouping_lost :
    ∃ (file : File) (e : Expr) (x : Target.Expr),
      read lost = .ok file ∧ e ∈ file.exprs ∧ (∀ c ∈ e.parts, c.isCall = false) ∧
      (∀ c ∈ e.parts, c.top? ≠ some .andNot) ∧ e.lower lost = ⟨.ok x, []⟩ ∧
      x.text = "a & b == c" ∧
      e.tree = .binary .equal (.binary .and (.name "a") (.name "b")) (.name "c") ∧
      Target.Expr.ofText? x.text
        = some (.binary .and (.name "a") (.binary .equal (.name "b") (.name "c"))) ∧
      Target.Expr.ofText? x.text ≠ some e.tree := by
  let e : Expr :=
    .binary .equal
      (.binary .and (.name ⟨"a", ⟨43, 44⟩⟩) (.name ⟨"b", ⟨47, 48⟩⟩) ⟨43, 48⟩)
      (.name ⟨"c", ⟨52, 53⟩⟩) ⟨43, 53⟩
  have hexprs : (read lost).toOption.map exprs = some [e] := by decide +kernel
  obtain ⟨file, hread, he⟩ := Option.map_eq_some_iff.1 hexprs
  have hread' := eq_ok_of_toOption hread
  exact ⟨file, e, e.tree, hread', by simp [he], by decide +kernel, by decide +kernel, rfl, rfl, rfl,
    by decide +kernel, by decide +kernel⟩

end File

end Recast
