import Recast.Proofs.Reread
import Recast.Proofs.SoundFiles
import Recast.Proofs.Unplaced

/-!
# Printing an expression and reading it back

The text of a lowered expression is again a text of the source language. Put after `return` in the
body of a function (`Target.Expr.returned`), it is read as the expression that it was made from,
with other spans (`File.read_returned_iff`). The pieces and the trees around the expression are
fixed, so reading the function comes down to reading the one statement of its body
(`File.read_returned`). The one text that is not read back begins with `case` or `default`. These
words are names where no case of a switch can begin, but `return` leaves them to the next case
(`File.returned_keyword_unread`).
-/

namespace Recast

/-! ## A function around an expression -/

namespace Piece

def lineBreak : Piece := ⟨.blank, ['\n']⟩

/-- The pieces before the expression that a function returns. -/
def heading : List Piece :=
  [⟨.word, ['f', 'u', 'n', 'c']⟩, blank, ⟨.word, ['f']⟩, ⟨.mark (.opening .paren), ['(']⟩,
    ⟨.mark (.closing .paren), [')']⟩, blank, ⟨.mark (.opening .brace), ['{']⟩, lineBreak,
    ⟨.word, ['r', 'e', 't', 'u', 'r', 'n']⟩, blank]

/-- The pieces after it. -/
def ending : List Piece := [lineBreak, ⟨.mark (.closing .brace), ['}']⟩, lineBreak]

theorem scan_lineBreak {rest : List Char} {ps : List Piece} (h : scan rest = .ok ps) :
    scan ('\n' :: rest) = .ok (lineBreak :: ps) :=
  scan_of_measure? [] rfl h

theorem scan_heading {rest : List Char} {ps : List Piece} (h : scan rest = .ok ps) :
    scan (heading.flatMap text ++ rest) = .ok (heading ++ ps) := by
  have hreturn : Stands ⟨.word, ['r', 'e', 't', 'u', 'r', 'n']⟩ :=
    Measured.stands ⟨'r', ['e', 't', 'u', 'r', 'n'], 5, by decide +kernel, rfl⟩ (.inl rfl)
  have hfunc : Stands ⟨.word, ['f', 'u', 'n', 'c']⟩ :=
    Measured.stands ⟨'f', ['u', 'n', 'c'], 3, by decide +kernel, rfl⟩ (.inl rfl)
  have h₁ := hreturn.scan (by simp [EndsOperand]) (scan_blank h)
  have h₂ := scan_mark (c := '{') [] (by decide) (.inl (by decide)) rfl (scan_lineBreak h₁)
  have h₃ := scan_mark (c := ')') [] (by decide) (.inl (by decide)) rfl (scan_blank h₂)
  have h₄ := scan_mark (c := '(') [] (by decide) (.inl (by decide)) rfl h₃
  have h₅ := scan_of_measure? (c := 'f') [] rfl h₄
  exact hfunc.scan (by simp [EndsOperand]) (scan_blank h₅)

theorem scan_ending : scan (ending.flatMap text) = .ok ending := by
  have h₁ := scan_mark (c := '}') [] (by decide) (.inl (by decide)) rfl
    (scan_lineBreak (by rw [scan]))
  exact scan_lineBreak h₁

end Piece

namespace Forest

/-- The trees in the body of a function that returns an expression. -/
def returning (us : Forest) : Forest := .leaf ⟨.word "return", .line, ⟨11, 17⟩⟩ :: us

/-- The trees of the function. -/
def function (us : Forest) (stop : Nat) : Forest :=
  [.leaf ⟨.word "func", .none, ⟨0, 4⟩⟩, .leaf ⟨.word "f", .blank, ⟨5, 6⟩⟩,
    .group .paren .none [] .none ⟨6, 8⟩, .group .brace .blank (returning us) .line ⟨9, stop⟩]

theorem ofLexemes_function {ps : List Piece} {us : Forest} {stop : Nat}
    (h : Piece.Builds 18 .blank ps us stop .none) :
    ofLexemes (Lexeme.ofPieces 0 .none (Piece.heading ++ (ps ++ Piece.ending)))
      = .ok (function us (stop + 2)) := by
  have hframe := h
    [⟨.brace, ⟨.mark (.opening .brace), .blank, ⟨9, 10⟩⟩,
      [.group .paren .none [] .none ⟨6, 8⟩, .leaf ⟨.word "f", .blank, ⟨5, 6⟩⟩,
        .leaf ⟨.word "func", .none, ⟨0, 4⟩⟩]⟩]
    [.leaf ⟨.word "return", .line, ⟨11, 17⟩⟩] Piece.ending
  -- Before the expression and after it, brackets are matched by computation.
  refine Eq.trans ?_ (hframe.trans ?_)
  · rfl
  · simp [Piece.ending, Piece.lineBreak, Lexeme.ofPieces, Lexeme.kindOf?, Gap.extend, build,
      function, returning, Span.through]
    rfl

end Forest

/-- The source of a function that returns an expression. -/
def Target.Expr.returned (x : Target.Expr) : Source :=
  ⟨"func f() \x7b\nreturn " ++ x.text ++ "\n\x7d\n"⟩

theorem Target.Expr.chars_returned (x : Target.Expr) :
    x.returned.chars
      = Recast.Piece.heading.flatMap Recast.Piece.text ++
        (x.text.toList ++ Recast.Piece.ending.flatMap Recast.Piece.text) := by
  have happend : ∀ a t b : String, (a ++ t ++ b).toList = a.toList ++ (t.toList ++ b.toList) := by
    intro a t b
    rw [String.toList_append, String.toList_append, List.append_assoc]
  have hheading : "func f() \x7b\nreturn ".toList
      = Recast.Piece.heading.flatMap Recast.Piece.text := by decide +kernel
  have hending : "\n\x7d\n".toList
      = Recast.Piece.ending.flatMap Recast.Piece.text := by decide +kernel
  rw [← hheading, ← hending]
  exact happend _ x.text _

/-! ## Reading the function -/

namespace File

/-- The function that is read, given the statements in its body. -/
def function (stmts : List Stmt) (stop : Nat) : Func :=
  ⟨⟨"f", ⟨5, 6⟩⟩, ⟨[], ⟨6, 8⟩⟩, none, some (.mk stmts ⟨9, stop⟩), ⟨0, stop⟩⟩

/-- The function is read if the trees of its body are, one level of brackets further in. -/
theorem readItem_function (us : Forest) (stop n : Nat) :
    readItem (.ofDepth (n + 1)) (Forest.function us stop)
      = (readStmts (.ofDepth n) (Forest.returning us)).map fun stmts =>
        (.func (function stmts stop), []) := by
  let body : Forest := [.group .brace .blank (Forest.returning us) .line ⟨9, stop⟩]
  have hbody : readBody (.ofDepth (n + 1)) body
      = (readStmts (.ofDepth n) (Forest.returning us)).map fun stmts =>
        (some (.mk stmts ⟨9, stop⟩), []) := by
    unfold readBody readBlock
    simp only [body, Option.map_map]
    rfl
  have hsignature : readSignature (.ofDepth (n + 1)) (.group .paren .none [] .none ⟨6, 8⟩ :: body)
      = (readStmts (.ofDepth n) (Forest.returning us)).map fun stmts =>
        ((⟨[], ⟨6, 8⟩⟩, none, some (.mk stmts ⟨9, stop⟩)), []) := by
    have hparams : (Interior.ofDepth (n + 1)).params [] = some [] := rfl
    have hresults : readResults (.ofDepth (n + 1)) body = some (none, body) := rfl
    unfold readSignature
    simp only [hparams, hresults, hbody, Option.bind_eq_bind, Option.bind_some]
    cases readStmts (.ofDepth n) (Forest.returning us) <;> rfl
  have hfunc : readFunc (.ofDepth (n + 1)) (Forest.function us stop)
      = (readStmts (.ofDepth n) (Forest.returning us)).map fun stmts =>
        (function stmts stop, []) := by
    show ((readSignature (.ofDepth (n + 1))
      (.group .paren .none [] .none ⟨6, 8⟩ :: body)).bind _) = _
    rw [hsignature]
    cases readStmts (.ofDepth n) (Forest.returning us) <;> rfl
  show (readFunc (.ofDepth (n + 1)) (Forest.function us stop)).map _ = _
  rw [hfunc, Option.map_map]
  rfl

theorem readItems_function (us : Forest) (stop : Nat) :
    readItems (Forest.function us stop)
      = (readStmts (.ofDepth (Tree.depthList us)) (Forest.returning us)).elim
        (.error (Forest.function us stop)) fun stmts => .ok [.func (function stmts stop)] := by
  have hdepth : Tree.depthList (Forest.function us stop) = Tree.depthList us + 1 := by
    simp [Forest.function, Forest.returning, Tree.depthList, Tree.depth]
  unfold readItems
  rw [hdepth, Reader.lines, readItem_function]
  cases readStmts (.ofDepth (Tree.depthList us)) (Forest.returning us) <;> rfl

end File

/-! ## Reading its body -/

namespace Target.Expr

/-- The name that the text of an expression begins with, if it begins with one. -/
def leading? : Expr → Option String
  | .name w => some w
  | .binary _ l _ => l.leading?
  | _ => none

/-- The text begins with a word that `return` leaves to the next case of a switch. -/
def beginsCase (x : Expr) : Bool := x.leading? == some "case" || x.leading? == some "default"

theorem Shown.head {x : Expr} {us : Forest} (h : x.Shown us) :
    ∃ t ts, us = t :: ts ∧ t.word? = x.leading? ∧ t.isTerminator = false := by
  induction h with
  | binary _ _ _ _ _ ihl =>
    obtain ⟨t, ts, rfl, hword, hmark⟩ := ihl
    exact ⟨t, _, rfl, hword, hmark⟩
  | literal | name | unary | paren => exact ⟨_, _, rfl, rfl, rfl⟩

theorem Shown.head_of_gap {x : Expr} {us : Forest} (h : x.Shown us)
    (hgap : us.gap? = some .blank) :
    ∃ t ts, us = t :: ts ∧ t.onNewLine = false ∧ t.isTerminator = false ∧
      t.beginsCase = x.beginsCase := by
  obtain ⟨t, ts, rfl, hword, hmark⟩ := h.head
  refine ⟨t, ts, rfl, ?_, hmark, ?_⟩
  · rw [Tree.onNewLine, Option.some.inj hgap]
    rfl
  · rw [Tree.beginsCase, beginsCase, Tree.isWord, Tree.isWord, hword]

end Target.Expr

section

variable {I : Interior} {us : Forest}

theorem beginsWithLabel_returning : beginsWithLabel us.returning = false := by
  cases us <;> simp [beginsWithLabel, Forest.returning, Tree.word?, isStatementWord]

theorem isLoneLabel_returning (stop : Tree → Bool) : isLoneLabel stop us.returning = false := by
  simp [isLoneLabel, beginsWithLabel_returning]

theorem readStmt_returning : readStmt I us.returning = readReturn I us.returning := by
  have hlabel : beginsWithLabel us.returning = false := beginsWithLabel_returning
  unfold Forest.returning at hlabel ⊢
  unfold readStmt
  rw [hlabel]
  rfl

/-- A body is read as the one statement that it is. -/
theorem readStmts_of_readReturn {s : Stmt}
    (h : readReturn I us.returning = some (⟨.return, s⟩, [])) :
    readStmts I us.returning = some [s] := by
  have hlist : readList I (fun _ => false) us.returning = .ok ([⟨.return, s⟩], []) := by
    rw [readList, isLoneLabel_returning, Reader.lines, isLoneLabel_returning, readStmt_returning, h]
    rfl
  rw [readStmts, hlist]
  rfl

/-- No body is read if its statement ends before the line does. -/
theorem readStmts_eq_none {p : Phrase} {t : Tree} {ts : Forest}
    (h : readReturn I us.returning = some (p, t :: ts)) (hline : t.onNewLine = false)
    (hmark : t.isTerminator = false) : readStmts I us.returning = none := by
  have hend : Forest.skipEnd? (t :: ts) = none := by
    simp [Forest.skipEnd?, hline, hmark]
  have hhead : us.returning.head?.all (fun _ => false) = false := rfl
  have hlist : readList I (fun _ => false) us.returning = .error (t :: ts) := by
    rw [readList, isLoneLabel_returning, Reader.lines, isLoneLabel_returning, readStmt_returning, h,
      hhead]
    simp only [Bool.false_eq_true, ↓reduceIte, hend]
  rw [readStmts, hlist]

end

namespace Target.Expr

/-- What is returned is read back, unless a case begins with it. -/
theorem Shown.readStmts {x : Expr} {us : Forest} (h : x.Shown us)
    (hf : x.Formed Operator.strength) (hg : x.Grouped Operator.strength)
    (hgap : us.gap? = some .blank) (hcase : x.beginsCase = false) :
    ∃ e span, Recast.readStmts (.ofDepth (Tree.depthList us)) us.returning = some [.ret [e] span] ∧
      e.tree = x := by
  obtain ⟨e, he, htree⟩ := (h.found hf hg).read hg (Nat.le_refl _) .listed
  obtain ⟨t, ts, hus, hline, hmark, hbegins⟩ := h.head_of_gap hgap
  have hgo : continues us = true := by
    rw [hus, continues, hline, hmark, hbegins, hcase]
    rfl
  refine ⟨e, us.returning.spanOf [], readStmts_of_readReturn ?_, htree⟩
  have hlist : Recast.Expr.readList (.ofDepth (Tree.depthList us)) .listed us = some ([e], []) := by
    rw [Recast.Expr.readList, he]
    rfl
  unfold readReturn
  rw [show us.returning.tail = us from rfl, if_pos hgo, hlist]
  rfl

/-- What a case begins with is not read as what is returned. -/
theorem Shown.readStmts_eq_none {x : Expr} {us : Forest} (h : x.Shown us)
    (hgap : us.gap? = some .blank) (hcase : x.beginsCase = true) (I : Interior) :
    Recast.readStmts I us.returning = none := by
  obtain ⟨t, ts, hus, hline, hmark, hbegins⟩ := h.head_of_gap hgap
  have hstop : continues us = false := by
    rw [hus, continues, hbegins, hcase, Bool.not_true, Bool.and_false]
  have hreturn : readReturn I us.returning
      = some (⟨.return, .ret [] (us.returning.spanOf us)⟩, t :: ts) := by
    unfold readReturn
    rw [show us.returning.tail = us from rfl, if_neg (by simp [hstop]), hus]
  exact Recast.readStmts_eq_none hreturn hline hmark

end Target.Expr

/-! ## Reading the whole text -/

namespace File

/-- The source is a file with one function, if the body of the function can be read. -/
theorem read_returned {x : Target.Expr} {ps : List Piece} (h : x.Cut ps)
    (hsize : x.returned.size < Span.limit) :
    ∃ us stop span, x.Shown us ∧ us.gap? = some .blank ∧
      read x.returned = (readStmts (.ofDepth (Tree.depthList us)) us.returning).elim
        (.error (unexpected x.returned ⟨0, 4⟩)) fun stmts =>
          .ok ⟨[.func (function stmts stop)], span⟩ := by
  obtain ⟨us, stop, hus, hgap, hbuilds⟩ := h.builds 18 .blank
  have hpieces : Piece.ofChars x.returned.chars
      = .ok (Piece.heading ++ (ps ++ Piece.ending)) := by
    rw [x.chars_returned]
    exact Piece.scan_heading (h.scan (by simp [EndsOperand, Piece.ending, Piece.lineBreak])
      Piece.scan_ending)
  refine ⟨us, stop + 2,
    ⟨firstOffset 0 (Piece.heading ++ (ps ++ Piece.ending)), x.returned.size⟩, hus, hgap, ?_⟩
  rw [read, if_neg (Nat.not_le.2 hsize), hpieces]
  simp only [Forest.ofLexemes_function hbuilds, readItems_function]
  cases readStmts (.ofDepth (Tree.depthList us)) us.returning <;> rfl

end File

/-! ## Expressions up to their places -/

/-- Expressions that can be lowered as they stand differ in nothing but their spans if they have
the same tree. -/
theorem Expr.unplaced_eq_of_tree_eq {strength : Operator → Nat} : ∀ {a b : Expr}, a.tree = b.tree →
    b.tree.Formed strength → a.unplaced = b.unplaced
  | a, .literal t span, h, hf => by
    cases a <;> simp_all [tree, unplaced]
  | a, .name y, h, hf => by
    cases a <;> simp_all [tree, unplaced]
  | a, .binary op l r span, h, hf => by
    cases a with
    | binary op' l' r' span' =>
      obtain ⟨rfl, hl, hr⟩ : op' = op ∧ l'.tree = l.tree ∧ r'.tree = r.tree := by
        simpa [tree] using h
      rw [unplaced, unplaced, unplaced_eq_of_tree_eq hl hf.2.1, unplaced_eq_of_tree_eq hr hf.2.2]
    | _ => cases h
  | a, .unary op e span, h, hf => by
    cases a with
    | unary op' e' span' =>
      obtain ⟨rfl, he⟩ : op' = op ∧ e'.tree = e.tree := by simpa [tree] using h
      rw [unplaced, unplaced, unplaced_eq_of_tree_eq he hf.2.2]
    | _ => cases h
  | a, .paren e span, h, hf => by
    cases a with
    | paren e' span' =>
      have he : e'.tree = e.tree := by simpa [tree] using h
      rw [unplaced, unplaced, unplaced_eq_of_tree_eq he hf]
    | _ => cases h
  | a, .call .., h, hf | a, .selector .., h, hf | a, .unsupported _, h, hf => hf.elim

namespace File

/-- An expression of a file that holds no call and can be lowered to a text is read back, spans
apart, as what a function with this text after `return` returns, if and only if the text does not
begin with the name `case` or `default`, and the source of the function keeps below the limit for
spans. -/
theorem read_returned_iff {src : Source} {file : File} (hread : read src = .ok file) {e₀ e : Expr}
    (he₀ : e₀ ∈ file.exprs) (he : e ∈ e₀.parts) (hcalls : ∀ c ∈ e.parts, c.isCall = false)
    {x : Target.Expr} {ds : List Degradation} (hlower : e.lower src = ⟨.ok x, ds⟩) :
    (∃ (back : File) (f : Func) (e' : Expr) (s t : Span), read x.returned = .ok back ∧
      back.items = [.func f] ∧ f.body = some (.mk [.ret [e'] s] t) ∧ e'.unplaced = e.unplaced) ↔
      x.beginsCase = false ∧ x.returned.size < Span.limit := by
  obtain ⟨vs, hplaced, hmade⟩ := madeOf_of_read hread he₀ he
  obtain ⟨rfl, hf, hg⟩ := hmade.lowered hcalls hlower
  obtain ⟨ps, hcut⟩ := hmade.exists_cut hplaced hf
  constructor
  · rintro ⟨back, f, e', s, t, hback, -, -, -⟩
    have hsize : e.tree.returned.size < Span.limit := by
      by_contra hlarge
      rw [read, if_pos (Nat.not_lt.1 hlarge)] at hback
      cases hback
    refine ⟨?_, hsize⟩
    by_contra hcase
    obtain ⟨us, stop, span, hus, hgap, heq⟩ := read_returned hcut hsize
    rw [heq, hus.readStmts_eq_none hgap (by simpa using hcase)] at hback
    cases hback
  · rintro ⟨hcase, hsize⟩
    obtain ⟨us, stop, span, hus, hgap, heq⟩ := read_returned hcut hsize
    obtain ⟨e', s, hstmts, htree⟩ := hus.readStmts hf hg hgap hcase
    rw [hstmts] at heq
    exact ⟨_, _, e', s, _, heq, rfl, rfl, Expr.unplaced_eq_of_tree_eq htree hf⟩

/-- A text whose one expression is printed without its line breaks, with signs that run together. -/
def folded : Source :=
  ⟨"func f(a, b int) bool \x7b\n\treturn a +\n\t\t- -b*(0x1e) == `c\nd`\n\x7d\n"⟩

theorem read_returned_iff_folded :
    ∃ (file : File) (e : Expr) (x : Target.Expr),
      read folded = .ok file ∧ e ∈ file.exprs ∧ (∀ c ∈ e.parts, c.isCall = false) ∧
      e.lower folded = ⟨.ok x, []⟩ ∧ x.text = "a + --b * (0x1e) == `c\nd`" ∧
      ∃ (back : File) (f : Func) (e' : Expr) (s t : Span), read x.returned = .ok back ∧
        back.items = [.func f] ∧ f.body = some (.mk [.ret [e'] s] t) ∧
        e'.unplaced = e.unplaced := by
  let product : Expr :=
    .binary .mul (.unary .sub (.unary .sub (.name ⟨"b", ⟨41, 42⟩⟩) ⟨40, 42⟩) ⟨38, 42⟩)
      (.paren (.literal "0x1e" ⟨44, 48⟩) ⟨43, 49⟩) ⟨38, 49⟩
  let e : Expr :=
    .binary .equal (.binary .add (.name ⟨"a", ⟨32, 33⟩⟩) product ⟨32, 49⟩)
      (.literal "`c\nd`" ⟨53, 58⟩) ⟨32, 58⟩
  have hexprs : (read folded).toOption.map exprs = some [e] := by decide +kernel
  obtain ⟨file, hread, he⟩ := Option.map_eq_some_iff.1 hexprs
  have hread' := eq_ok_of_toOption hread
  have hmem : e ∈ file.exprs := by simp [he]
  have hcalls : ∀ c ∈ e.parts, c.isCall = false := by decide +kernel
  have hlower : e.lower folded = ⟨.ok e.tree, []⟩ := rfl
  have hsize : e.tree.returned.size < Span.limit := by decide +kernel
  exact ⟨file, e, e.tree, hread', hmem, hcalls, hlower, by decide +kernel,
    (read_returned_iff hread' hmem (Expr.self_mem_parts e) hcalls hlower).2 ⟨rfl, hsize⟩⟩

/-- A text in which a keyword is read as a name, since no case can begin there. -/
def keyword : Source := ⟨"func f() \x7b\n\tx := case\n\x7d\n"⟩

/-- After `return` a case can begin, and the name is not read again. -/
theorem returned_keyword_unread :
    ∃ (file : File) (e : Expr) (x : Target.Expr),
      read keyword = .ok file ∧ e ∈ file.exprs ∧ (∀ c ∈ e.parts, c.isCall = false) ∧
      e.lower keyword = ⟨.ok x, []⟩ ∧
      x.returned.text = "func f() \x7b\nreturn case\n\x7d\n" ∧
      x.returned.size < Span.limit ∧ ∀ back, read x.returned ≠ .ok back := by
  let e : Expr := .name ⟨"case", ⟨17, 21⟩⟩
  have hexprs : (read keyword).toOption.map exprs = some [.name ⟨"x", ⟨12, 13⟩⟩, e] := by
    decide +kernel
  obtain ⟨file, hread, he⟩ := Option.map_eq_some_iff.1 hexprs
  have hunread : (read e.tree.returned).toOption = none := by decide +kernel
  refine ⟨file, e, e.tree, eq_ok_of_toOption hread, by simp [he], by decide +kernel, rfl,
    by decide +kernel, by decide +kernel, fun back hback => ?_⟩
  rw [hback] at hunread
  cases hunread

end File

end Recast
