import Recast.Proofs.Nesting
import Recast.Proofs.Operands
import Recast.Proofs.Pieces

/-!
# Matching brackets

A bracket of a printed text stands in a layout, which closes it, or in a literal. What is copied
from a source is looked at first: names and numbers have no brackets, and the other literals end at
their quote (`Piece.Measured.balanced`). Then the layouts: if the brackets of the parts match, those
of the whole do, and its literals are those of the parts in their order (`Target.Piece.Matched`). A
function whose parts match is a definition by itself (`Target.Func.standalone`).
-/

namespace Recast

/-! ## What is copied -/

theorem isPlain_of_class {A : Char → Bool}
    (hA : ['"', '\'', '`', '(', '[', '{', ')', ']', '}'].all fun c => !A c) {c : Char}
    (hc : A c = true) : isPlain c = true := by
  have hnot : ∀ d ∈ ['"', '\'', '`', '(', '[', '{', ')', ']', '}'], c ≠ d := by
    rintro d hd rfl
    have hd := List.all_eq_true.1 hA c hd
    simp [hc] at hd
  simp only [List.forall_mem_cons, List.not_mem_nil, false_implies, implies_true, and_true] at hnot
  obtain ⟨h₁, h₂, h₃, h₄, h₅, h₆, h₇, h₈, h₉⟩ := hnot
  simp [isPlain, isQuote, Bracket.ofLeft?, Bracket.ofRight?, *]

/-- A character of a name is no bracket and no quote. -/
theorem isPlain_of_isMedial {c : Char} (hc : Letter.isMedial c = true) : isPlain c = true :=
  isPlain_of_class (by decide +kernel) hc

/-- Nor is a character of a number. -/
theorem isPlain_of_inImaginary {c : Char} (hc : Number.inImaginary c = true) : isPlain c = true :=
  isPlain_of_class (by decide) hc

theorem isMedial_of_isName {cs : List Char} (h : isName cs = true) :
    ∀ c ∈ cs, Letter.isMedial c = true := by
  cases cs with
  | nil => exact List.forall_mem_nil _
  | cons c cs =>
    obtain ⟨hc, hcs⟩ := Bool.and_eq_true_iff.1 h
    exact List.forall_mem_cons.2 ⟨Letter.isMedial_of_isInitial hc, List.all_eq_true.1 hcs⟩

namespace Piece

theorem stringTail_quoted {cs : List Char} {n : Nat} (h : stringTail cs = some n) :
    Quoted '"' (cs.take n) := by
  fun_induction stringTail cs generalizing n with
  | case1 | case2 | case3 | case6 => cases h
  | case4 cs =>
    cases h
    exact .close
  | case5 c cs _ ih =>
    obtain ⟨m, hm, rfl⟩ := Option.map_eq_some_iff.1 h
    exact .escape (by decide) (ih hm)
  | case7 c cs hn hz hq hb ih =>
    obtain ⟨m, hm, rfl⟩ := Option.map_eq_some_iff.1 h
    refine .char hq ?_ (ih hm)
    rintro rfl
    cases cs with
    | nil => cases hm
    | cons d ds => exact absurd rfl (hb d ds rfl)

theorem rawTail_quoted {cs : List Char} {n : Nat} (h : rawTail cs = some n) :
    Quoted '`' (cs.take n) := by
  fun_induction rawTail cs generalizing n with
  | case1 | case2 => cases h
  | case3 cs =>
    cases h
    exact .close
  | case4 c cs hz hq ih =>
    obtain ⟨m, hm, rfl⟩ := Option.map_eq_some_iff.1 h
    exact .char hq (fun _ => rfl) (ih hm)

theorem hex_digits {count : Nat} {cs : List Char} {n : Nat}
    (h : runeEscape.hex count cs = some n) :
    n = count + 1 ∧ ∀ d ∈ cs.take count, Number.isHexDigit d = true := by
  unfold runeEscape.hex at h
  split at h
  · rename_i hc
    cases h
    exact ⟨rfl, List.all_eq_true.1 (Bool.and_eq_true_iff.1 hc).2⟩
  · cases h

/-- An escape is a character of any kind and digits. -/
theorem runeEscape_digits {cs : List Char} {n : Nat} (h : runeEscape cs = some n) :
    ∃ c ds m, cs = c :: ds ∧ n = m + 1 ∧ ∀ d ∈ ds.take m, Number.isHexDigit d = true := by
  unfold runeEscape at h
  split at h
  · rename_i cs
    obtain ⟨rfl, hdigits⟩ := hex_digits h
    exact ⟨_, cs, 2, rfl, rfl, hdigits⟩
  · rename_i cs
    obtain ⟨rfl, hdigits⟩ := hex_digits h
    exact ⟨_, cs, 4, rfl, rfl, hdigits⟩
  · rename_i cs
    obtain ⟨rfl, hdigits⟩ := hex_digits h
    exact ⟨_, cs, 8, rfl, rfl, hdigits⟩
  · rename_i c cs _ _ _
    split at h
    · cases h
      exact ⟨c, cs, 0, rfl, rfl, by simp⟩
    · split at h
      · rename_i hoctal
        cases h
        rw [Bool.and_eq_true, List.all_cons, Bool.and_eq_true] at hoctal
        refine ⟨c, cs, 2, rfl, rfl, fun d hd => ?_⟩
        exact Number.isHexDigit_of_isOctalDigit d (List.all_eq_true.1 hoctal.1.2 d hd)
      · cases h
  · cases h

theorem runeTail_quoted {cs : List Char} {n : Nat} (h : runeTail cs = some n) :
    Quoted '\'' (cs.take n) := by
  rcases runeTail_cases h with
    ⟨es, count, rfl, rfl, hcount, hquote⟩ | ⟨c, es, rfl, rfl, hb, hq, -⟩
  · obtain ⟨c, ds, m, rfl, rfl, hdigits⟩ := runeEscape_digits hcount
    rw [List.getElem?_cons_succ] at hquote
    rw [List.take_succ_cons, List.take_succ_cons, List.take_add_one, hquote]
    refine .escape (by decide) (Quoted.append (fun d hd => ?_) .close)
    have hd := hdigits d hd
    constructor <;> rintro rfl <;> cases hd
  · exact .char hq (fun he => absurd he hb) .close

theorem Quote.quoted {q : Char} {kind : LiteralKind} {tail : List Char → Option Nat}
    (h : Quote q kind tail) {cs : List Char} {n : Nat} (hn : tail cs = some n) :
    Quoted q (cs.take n) := by
  cases h with
  | string => exact stringTail_quoted hn
  | raw => exact rawTail_quoted hn
  | rune => exact runeTail_quoted hn

theorem Quote.isQuote {q : Char} {kind : LiteralKind} {tail : List Char → Option Nat}
    (h : Quote q kind tail) : Recast.isQuote q = true := by
  cases h <;> decide

/-- What begins with a quote ends with it. -/
theorem quoted_of_measure? {c : Char} {cs : List Char} {kind : PieceKind} {n : Nat}
    (hc : isQuote c = true) (h : measure? c cs = some (kind, n)) : Quoted c (cs.take n) := by
  obtain ⟨k, tail, hq⟩ : ∃ k tail, Quote c k tail := by
    rcases isQuote_iff.1 hc with rfl | rfl | rfl
    · exact ⟨_, _, .string⟩
    · exact ⟨_, _, .rune⟩
    · exact ⟨_, _, .raw⟩
  rw [hq.measure?] at h
  obtain ⟨m, hs, he⟩ := Option.map_eq_some_iff.1 h
  cases he
  exact hq.quoted hs

/-- What a number takes, one of its candidates takes. -/
theorem inImaginary_of_mem_number {cs : List Char} {c : Char}
    (h : c ∈ cs.take (Number.length cs)) : Number.inImaginary c = true := by
  obtain ⟨i, hi, rfl⟩ := List.mem_take_iff_getElem.1 h
  by_contra hc
  have hle : Number.length cs ≤ i := by
    refine Number.length_le_iff.2 fun f hf => ?_
    by_contra hlt
    exact hc ((Number.measures_local f hf).taken cs _
      (List.mem_take_iff_getElem.2 ⟨i, by omega, rfl⟩))
  omega

/-- A literal without quotes is a number. -/
theorem inImaginary_of_measure? {c : Char} {cs : List Char} {kind : LiteralKind} {n : Nat}
    (hc : isQuote c = false) (h : measure? c cs = some (.literal kind, n)) :
    ∀ d ∈ c :: cs.take n, Number.inImaginary d = true := by
  cases begins_of_measure? h with
  | number hb hi hn =>
    rw [← List.take_succ_cons, Nat.sub_add_cancel hn]
    exact fun d hd => inImaginary_of_mem_number hd
  | quoted hq => simp [hq.isQuote] at hc

end Piece

/-- The text of a literal, if it stands between quotes. -/
def quotes (t : String) : List String := if t.toList.head?.any isQuote then [t] else []

/-- A literal that is read is opaque up to its end, or it is a number. -/
theorem Piece.Measured.balanced {p : Piece} (h : p.Measured) {kind : LiteralKind}
    (hk : p.kind = .literal kind) : Balanced (quotes (String.ofList p.text)) p.text := by
  obtain ⟨c, cs, n, hm, ht⟩ := h
  rw [hk] at hm
  rw [ht, quotes, String.toList_ofList, List.head?_cons, Option.any_some]
  cases hc : isQuote c with
  | true => exact .literal hc (quoted_of_measure? hc hm)
  | false => exact .of_plain fun d hd => isPlain_of_inImaginary (inImaginary_of_measure? hc hm d hd)

/-- A text without brackets and quotes. -/
def Plain (t : String) : Prop := ∀ c ∈ t.toList, isPlain c = true

instance (t : String) : Decidable (Plain t) :=
  decidable_of_iff (t.toList.all isPlain = true) List.all_eq_true

theorem Plain.append {s t : String} (h : Plain s) (k : Plain t) : Plain (s ++ t) := by
  rw [Plain, String.toList_append]
  exact List.forall_mem_append.2 ⟨h, k⟩

theorem Operator.plain_text (op : Operator) : Plain op.text := by cases op <;> decide

/-- A text without brackets and quotes on one line. -/
def OnLine (t : String) : Prop := ∀ c ∈ t.toList, isPlain c = true ∧ c ≠ '\n'

instance (t : String) : Decidable (OnLine t) :=
  decidable_of_iff (t.toList.all (fun c => isPlain c && c != '\n') = true) (by simp [OnLine])

namespace OnLine

variable {s t : String}

theorem plain (h : OnLine t) : Plain t := fun c hc => (h c hc).1

/-- Neither a block nor a line begins in it. -/
theorem opens_nothing (h : OnLine t) : ∀ c ∈ t.toList, c ≠ '{' ∧ c ≠ '\n' := by
  intro c hc
  refine ⟨?_, (h c hc).2⟩
  rintro rfl
  cases (h _ hc).1

theorem append (h : OnLine s) (k : OnLine t) : OnLine (s ++ t) := by
  rw [OnLine, String.toList_append]
  exact List.forall_mem_append.2 ⟨h, k⟩

theorem intercalate {ts : List String} (hs : OnLine s) (h : ∀ t ∈ ts, OnLine t) :
    OnLine (s.intercalate ts) := by
  induction ts with
  | nil => exact List.forall_mem_nil _
  | cons t ts ih =>
    obtain ⟨ht, hts⟩ := List.forall_mem_cons.1 h
    cases ts with
    | nil => rwa [String.intercalate_singleton]
    | cons u ts =>
      rw [String.intercalate_cons_cons]
      exact (ht.append hs).append (ih hts)

theorem of_isName (h : isName t.toList = true) : OnLine t := by
  intro c hc
  have hmedial := isMedial_of_isName h c hc
  refine ⟨isPlain_of_isMedial hmedial, ?_⟩
  rintro rfl
  exact absurd hmedial (by decide +kernel)

end OnLine

theorem Primitive.onLine_text (t : Primitive) : OnLine t.text := by cases t <;> decide

/-! ## Texts with matching brackets -/

namespace Target

/-- The literals between quotes in an expression, in the order in which they stand. -/
def Expr.quoted : Expr → List String
  | .literal t => quotes t
  | .name _ | .placeholder => []
  | .binary _ l r => l.quoted ++ r.quoted
  | .unary _ x | .paren x | .message x => x.quoted

def Fragment.quoted : Fragment → List String
  | .bind _ v | .rebind _ v | .discard v => v.quoted
  | .assign t _ v => t.quoted ++ v.quoted
  | .declare _ _ _ v => v.elim [] Expr.quoted
  | .step x _ => x.quoted

def Piece.quoted : Piece → List String
  | .glue _ => []
  | .expr x => x.quoted
  | .fragment f => f.quoted

/-- The literals between quotes in a function. -/
def Func.quoted (f : Func) : List String := f.pieces.flatMap Piece.quoted

/-- The brackets of an expression match, and its literals are as they are listed. -/
def Expr.Matched (x : Expr) : Prop := Balanced x.quoted x.text.toList

def Fragment.Matched (f : Fragment) : Prop := Balanced f.quoted f.text.toList

/-- The same of the text that pieces make up. -/
def Piece.Matched (ps : List Piece) : Prop :=
  Balanced (ps.flatMap Piece.quoted) (Piece.join ps).toList

end Target

namespace Balanced

variable {ls ms : List String} {s t : String}

theorem glue (h : Plain s) : Balanced [] s.toList := .of_plain h

theorem join (h : Balanced ls s.toList) (k : Balanced ms t.toList) :
    Balanced (ls ++ ms) (s ++ t).toList := by
  rw [String.toList_append]
  exact h.append k

theorem join_glue (h : Balanced ls s.toList) (ht : Plain t) : Balanced ls (s ++ t).toList := by
  have hj : Balanced (ls ++ []) (s ++ t).toList := h.join (.glue ht)
  rwa [List.append_nil] at hj

theorem glue_join (hs : Plain s) (h : Balanced ls t.toList) : Balanced ls (s ++ t).toList :=
  (Balanced.glue hs).join h

/-- A text in parentheses. -/
theorem paren (h : Balanced ls t.toList) : Balanced ls ("(" ++ t ++ ")").toList := by
  have hgroup := h.group .paren (by simp)
  simpa [Bracket.left, Bracket.right] using hgroup

/-- A block, with or without a line break before the brace that closes it. -/
theorem block (h : Balanced ls t.toList) (ht : Plain s) :
    Balanced ls (Target.opening ++ t ++ s ++ Target.closing).toList := by
  have hbreak : Plain "\n" := by decide
  have hgroup := ((glue_join hbreak h).join_glue ht).group .brace fun _ => by simp
  simpa [Bracket.left, Bracket.right, Target.opening, Target.closing] using hgroup

end Balanced

namespace Target

/-! ### Fragments -/

namespace Fragment

variable {n : String} {v : Expr}

theorem matched_bind (hn : Plain n) (hv : v.Matched) : (bind n v).Matched :=
  .glue_join (.append (.append (by decide) hn) (by decide)) hv

theorem matched_rebind (hn : Plain n) (hv : v.Matched) : (rebind n v).Matched :=
  .glue_join (.append hn (by decide)) hv

theorem matched_discard (hv : v.Matched) : (discard v).Matched := by
  have hvoid : Balanced [] ("(" ++ "void" ++ ")").toList := .paren (.glue (by decide))
  have hall := hvoid.join hv.paren
  simpa [Matched, text, quoted] using hall

theorem matched_assign {x : Expr} (op : Operator) (hx : x.Matched) (hv : v.Matched) :
    (assign x op v).Matched :=
  (((hx.join_glue (by decide)).join_glue op.plain_text).join_glue (by decide)).join hv

theorem matched_declare {constant : Bool} {type : Option Primitive} {value : Option Expr}
    (hn : Plain n) (hv : ∀ v ∈ value, v.Matched) : (declare constant type n value).Matched := by
  have hstart : Plain (if constant then "const " else "") := by cases constant <;> decide
  have htype : Plain (type.elim "auto" Primitive.text) := by
    cases type with
    | none => decide
    | some t => exact t.onLine_text.plain
  have hname := ((hstart.append htype).append (by decide : Plain " ")).append hn
  cases value with
  | none => exact (Balanced.glue hname).join_glue (by decide)
  | some v => exact .glue_join hname (.glue_join (by decide) (hv v rfl))

theorem matched_step (op : Operator) (hv : v.Matched) : (step v op).Matched :=
  Balanced.join_glue hv op.plain_text

end Fragment

/-! ### Layouts -/

namespace Piece

variable {ps qs body other : List Piece} {fs : List Fragment} {x : Expr}

namespace Matched

theorem nil : Matched [] := Balanced.nil

theorem append (h : Matched ps) (k : Matched qs) : Matched (ps ++ qs) := by
  rw [Matched, List.flatMap_append, join_append]
  exact Balanced.join h k

theorem glue {t : String} (h : Plain t) : Matched [.glue t] := by
  simpa [Matched, quoted] using Balanced.glue h

theorem expr (h : x.Matched) : Matched [.expr x] := by
  rw [Expr.Matched] at h
  simpa [Matched, quoted] using h

theorem fragment {f : Fragment} (h : f.Matched) : Matched [.fragment f] := by
  rw [Fragment.Matched] at h
  simpa [Matched, quoted] using h

end Matched

theorem matched_lines (h : ∀ f ∈ fs, f.Matched) : Matched (lines fs) := by
  induction fs with
  | nil => exact .nil
  | cons f fs ih =>
    obtain ⟨hf, hfs⟩ := List.forall_mem_cons.1 h
    exact ((Matched.fragment hf).append (.glue (by decide))).append (ih hfs)

theorem matched_clause (h : ∀ f ∈ fs, f.Matched) : Matched (clause fs) := by
  induction fs with
  | nil => exact .nil
  | cons f fs ih =>
    obtain ⟨hf, hfs⟩ := List.forall_mem_cons.1 h
    cases fs with
    | nil => exact .fragment hf
    | cons g fs => exact ((Matched.fragment hf).append (.glue (by decide))).append (ih hfs)

theorem matched_test {test : Option Expr} (h : ∀ x ∈ test, x.Matched) :
    Matched (Piece.test test) := by
  cases test with
  | none => exact .nil
  | some x =>
    have hx := Matched.expr (h x rfl)
    rw [Piece.test]
    split
    · exact hx
    · exact (Matched.glue (by decide)).append hx

theorem matched_padded (h : ∀ f ∈ fs, f.Matched) : Matched (padded fs) := by
  rw [padded]
  split
  · exact .nil
  · exact (Matched.glue (by decide)).append (matched_clause h)

theorem matched_braced (h : Matched body) : Matched (braced body) := by
  have hblock : Balanced _ (opening ++ join body ++ "" ++ closing).toList :=
    Balanced.block h (by decide)
  simpa [Matched, braced, quoted, String.append_assoc] using hblock

theorem matched_enclosed (hfs : ∀ f ∈ fs, f.Matched) (h : Matched body) :
    Matched (enclosed fs body) := by
  have hblock := (Balanced.block ((matched_lines hfs).append h) (by decide : Plain "\n")).join_glue
    (by decide : Plain "\n")
  simpa [Matched, enclosed, quoted, String.append_assoc] using hblock

theorem matched_conditional (hx : x.Matched) (hb : Matched body) (ho : Matched other) :
    Matched (conditional x body other) := by
  have htest := ((Balanced.paren hx).glue_join (by decide : Plain "if")).join_glue
    (by decide : Plain " ")
  have hall := htest.join ((matched_braced hb).append ho)
  simpa [Matched, conditional, quoted, String.append_assoc] using hall

theorem matched_loop {init : List Piece} {test : Option Expr} (hi : Matched init)
    (ht : ∀ x ∈ test, x.Matched) (hp : ∀ f ∈ fs, f.Matched) (hb : Matched body) :
    Matched (loop init test fs body) := by
  have hsemicolon : Matched [.glue ";"] := .glue (by decide)
  have hheader := ((hi.append hsemicolon).append ((matched_test ht).append hsemicolon)).append
    (matched_padded hp)
  have hparens := ((Balanced.paren hheader).glue_join (by decide : Plain "for")).join_glue
    (by decide : Plain " ")
  have hall := hparens.join (matched_braced hb)
  simpa [Matched, loop, quoted, String.append_assoc] using hall

end Piece

namespace Stmt

variable {body : List Stmt} {other : Branch} {x : Expr}

theorem matched_ret {value : Option Expr} (h : ∀ x ∈ value, x.Matched) :
    Piece.Matched (Stmt.ret value).pieces := by
  cases value with
  | none => exact .glue (by decide)
  | some x =>
    exact ((Piece.Matched.glue (by decide)).append (.expr (h x rfl))).append (.glue (by decide))

theorem matched_cond {init : Option (List Fragment)} (hi : ∀ f ∈ init.getD [], f.Matched)
    (hx : x.Matched) (hb : Piece.Matched (listPieces body)) (ho : Piece.Matched other.pieces) :
    Piece.Matched (Stmt.cond init x body other).pieces := by
  have hinner := Piece.matched_conditional hx hb ho
  cases init with
  | none => exact hinner.append (.glue (by decide))
  | some fs => exact Piece.matched_enclosed hi hinner

theorem matched_loop {init post : List Fragment} {test : Option Expr}
    (hi : ∀ f ∈ init, f.Matched) (ht : ∀ x ∈ test, x.Matched) (hp : ∀ f ∈ post, f.Matched)
    (hb : Piece.Matched (listPieces body)) :
    Piece.Matched (Stmt.loop init test post body).pieces := by
  have hbreak : Piece.Matched [.glue "\n"] := .glue (by decide)
  rcases init with _ | ⟨f, _ | ⟨g, fs⟩⟩
  · exact (Piece.matched_loop .nil ht hp hb).append hbreak
  · exact (Piece.matched_loop (.fragment (hi f (by simp))) ht hp hb).append hbreak
  · exact Piece.matched_enclosed hi (Piece.matched_loop .nil ht hp hb)

end Stmt

theorem Branch.matched_wrapped {fs : List Fragment} {x : Expr} {body : List Stmt} {other : Branch}
    (hfs : ∀ f ∈ fs, f.Matched) (hx : x.Matched) (hb : Piece.Matched (Stmt.listPieces body))
    (ho : Piece.Matched other.pieces) : Piece.Matched (Branch.wrapped fs x body other).pieces := by
  have hinner := Piece.matched_enclosed hfs (Piece.matched_conditional hx hb ho)
  have helse := (Piece.Matched.glue (by decide : Plain " else ")).append
    (Piece.matched_braced hinner)
  simpa [Piece.Matched, Branch.pieces, Piece.braced, Piece.quoted, String.append_assoc] using helse

/-! ### Functions -/

/-- The parameters as they stand in the head of a function. -/
def Func.paramList (f : Func) : String :=
  ", ".intercalate (f.params.map fun param => param.1.text ++ " " ++ param.2)

theorem Func.head_eq (f : Func) :
    f.head = f.result.elim "void" Primitive.text ++ " " ++ f.name ++ "(" ++ f.paramList ++ ") " :=
  rfl

/-- A function with a plain name and parameters and a body with matching brackets is a definition
by itself. -/
theorem Func.standalone {f : Func} (hname : OnLine f.name)
    (hparams : ∀ param ∈ f.params, OnLine param.2)
    (hbody : Piece.Matched (Stmt.listPieces f.body)) :
    Standalone f.quoted f.head.toList f.text.toList := by
  have hresult : OnLine (f.result.elim "void" Primitive.text) := by
    cases f.result with
    | none => decide
    | some t => exact t.onLine_text
  have hbefore := (hresult.append (by decide : OnLine " ")).append hname
  have hlist : OnLine f.paramList := by
    refine OnLine.intercalate (by decide) (List.forall_mem_map.2 fun param hparam => ?_)
    exact (param.1.onLine_text.append (by decide)).append (hparams param hparam)
  have hhead : Balanced [] f.head.toList := by
    have hall := ((Balanced.paren (.glue hlist.plain)).glue_join hbefore.plain).join_glue
      (by decide : Plain " ")
    simpa [f.head_eq, String.append_assoc] using hall
  have hline : ∀ c ∈ f.head.toList, c ≠ '{' ∧ c ≠ '\n' := by
    simp only [f.head_eq, String.toList_append, List.forall_mem_append]
    exact ⟨⟨⟨⟨⟨hresult.opens_nothing, by simp⟩, hname.opens_nothing⟩, by simp⟩,
      hlist.opens_nothing⟩, by simp⟩
  have hquoted : f.quoted = (Stmt.listPieces f.body).flatMap Piece.quoted := by
    simp [Func.quoted, Func.pieces, Piece.braced, Piece.quoted]
  have htext : f.text.toList = f.head.toList
      ++ '{' :: ('\n' :: (Piece.join (Stmt.listPieces f.body)).toList ++ ['}', '\n']) := by
    rw [f.text_eq_join]
    simp [Func.pieces, Piece.join_braced, braced, opening, closing]
  rw [hquoted, htext]
  exact hhead.standalone hline hbody

end Target

end Recast
