import Recast.Target.Stmt

/-!
# The pieces of a text

The text of a statement as a list of pieces: its fragments and its other expressions, in the order
in which they stand, and the text between them. Joined, the pieces are the text
(`Func.text_eq_join`), so a statement about single fragments of a text can be made about pieces.
-/

namespace Recast.Target

/-! ## Texts of fragments -/

namespace Fragment

theorem lines_cons (f : Fragment) (fs : List Fragment) :
    lines (f :: fs) = f.text ++ ";\n" ++ lines fs :=
  String.join_cons

theorem clause_singleton (f : Fragment) : clause [f] = f.text := String.intercalate_singleton

theorem clause_cons_cons (f g : Fragment) (fs : List Fragment) :
    clause (f :: g :: fs) = f.text ++ ", " ++ clause (g :: fs) :=
  String.intercalate_cons_cons

/-- Every fragment has a text, whatever it is made of. -/
theorem text_ne_empty (f : Fragment) : f.text ≠ "" := by
  intro h
  have hs := congrArg String.length h
  cases f with
  | step x op =>
    have ho : 0 < op.text.length := by cases op <;> decide
    simp only [text, String.length_append, String.length_empty] at hs
    omega
  | bind | rebind | discard | assign | declare => simp [text, String.length_append] at hs

/-- So a clause is empty only if it has no fragment. -/
theorem clause_ne_empty (f : Fragment) (fs : List Fragment) : clause (f :: fs) ≠ "" := by
  cases fs with
  | nil =>
    rw [clause_singleton]
    exact f.text_ne_empty
  | cons g fs =>
    rw [clause_cons_cons]
    intro h
    rw [String.append_eq_empty_iff, String.append_eq_empty_iff] at h
    exact f.text_ne_empty h.1.1

end Fragment

/-! ## Pieces -/

/-- A fragment, an expression outside the fragments, or the text between these. -/
inductive Piece where
  | glue (text : String)
  | expr (x : Expr)
  | fragment (f : Fragment)
  deriving Repr, DecidableEq, Inhabited

namespace Piece

def text : Piece → String
  | .glue t => t
  | .expr x => x.text
  | .fragment f => f.text

/-- The text that pieces make up. -/
def join (ps : List Piece) : String := String.join (ps.map text)

@[simp] theorem join_nil : join [] = "" := rfl

@[simp] theorem join_cons (p : Piece) (ps : List Piece) : join (p :: ps) = p.text ++ join ps :=
  String.join_cons

@[simp] theorem join_append (ps qs : List Piece) : join (ps ++ qs) = join ps ++ join qs := by
  rw [join, List.map_append, String.join_append]
  rfl

@[simp] theorem text_glue (t : String) : (glue t).text = t := rfl

@[simp] theorem text_expr (x : Expr) : (expr x).text = x.text := rfl

@[simp] theorem text_fragment (f : Fragment) : (fragment f).text = f.text := rfl

/-- Fragments in a block, each with its terminator. -/
def lines (fs : List Fragment) : List Piece := fs.flatMap fun f => [.fragment f, .glue ";\n"]

/-- Fragments that share a clause. -/
def clause : List Fragment → List Piece
  | [] => []
  | [f] => [.fragment f]
  | f :: g :: fs => .fragment f :: .glue ", " :: clause (g :: fs)

/-- The condition of a loop. -/
def test : Option Expr → List Piece
  | none => []
  | some x => if x.text.isEmpty then [.expr x] else [.glue " ", .expr x]

/-- The last clause of a loop header. -/
def padded (fs : List Fragment) : List Piece :=
  if fs.isEmpty then [] else .glue " " :: clause fs

/-- Statements as a block. -/
def braced (body : List Piece) : List Piece := .glue opening :: (body ++ [.glue closing])

/-- A statement after fragments, in a block of their own. -/
def enclosed (fs : List Fragment) (inner : List Piece) : List Piece :=
  .glue opening :: (lines fs ++ inner ++ [.glue ("\n" ++ closing ++ "\n")])

/-- A conditional and what follows its body. -/
def conditional (test : Expr) (body other : List Piece) : List Piece :=
  .glue "if(" :: .expr test :: .glue ") " :: (braced body ++ other)

/-- A loop whose first clause is given as pieces. -/
def loop (init : List Piece) (test : Option Expr) (post : List Fragment) (body : List Piece) :
    List Piece :=
  .glue "for(" :: (init ++ .glue ";" :: (Piece.test test ++ .glue ";"
    :: (padded post ++ .glue ") " :: braced body)))

theorem join_lines (fs : List Fragment) : join (lines fs) = Fragment.lines fs := by
  induction fs with
  | nil => rfl
  | cons f fs ih =>
    change join (.fragment f :: .glue ";\n" :: lines fs) = _
    rw [join_cons, join_cons, ih, Fragment.lines_cons, String.append_assoc]
    rfl

theorem join_clause (fs : List Fragment) : join (clause fs) = Fragment.clause fs := by
  induction fs with
  | nil => rfl
  | cons f fs ih =>
    cases fs with
    | nil =>
      rw [Fragment.clause_singleton, clause, join_cons]
      exact String.append_empty
    | cons g fs =>
      rw [clause, join_cons, join_cons, ih, Fragment.clause_cons_cons, String.append_assoc]
      rfl

theorem join_test (test : Option Expr) : join (Piece.test test) = pad (test.elim "" Expr.text) := by
  cases test with
  | none => rfl
  | some x =>
    rw [Piece.test, Option.elim_some, pad]
    by_cases hx : x.text.isEmpty = true
    · rw [if_pos hx, if_pos hx, join_cons, text_expr, String.isEmpty_iff.1 hx]
      rfl
    · rw [if_neg hx, if_neg hx, join_cons, join_cons]
      simp

theorem join_padded (fs : List Fragment) : join (padded fs) = pad (Fragment.clause fs) := by
  cases fs with
  | nil => rfl
  | cons f fs =>
    have hne : (Fragment.clause (f :: fs)).isEmpty = false := by
      rw [Bool.eq_false_iff, ne_eq, String.isEmpty_iff]
      exact Fragment.clause_ne_empty f fs
    rw [pad, hne, padded, List.isEmpty_cons, if_neg Bool.false_ne_true, join_cons, join_clause]
    rfl

theorem join_braced (body : List Piece) : join (braced body) = Target.braced (join body) := by
  simp [braced, Target.braced, String.append_assoc]

theorem join_enclosed (fs : List Fragment) (inner : List Piece) :
    join (enclosed fs inner) = Target.enclosed fs (join inner) := by
  simp [enclosed, Target.enclosed, join_lines, String.append_assoc]

theorem join_conditional (test : Expr) (body other : List Piece) :
    join (conditional test body other) = Target.conditional test (join body) (join other) := by
  simp [conditional, Target.conditional, join_braced, String.append_assoc]

theorem join_loop (init : List Piece) (test : Option Expr) (post : List Fragment)
    (body : List Piece) :
    join (loop init test post body) = Target.loop (join init) test post (join body) := by
  simp [loop, Target.loop, join_test, join_padded, join_braced, String.append_assoc]

end Piece

/-! ## Statements and functions -/

mutual

/-- The pieces of a statement. -/
def Stmt.pieces : Stmt → List Piece
  | .ret none => [.glue "return;\n"]
  | .ret (some v) => [.glue "return ", .expr v, .glue ";\n"]
  | .simple fs => Piece.lines fs
  | .cond none test body other =>
    Piece.conditional test (Stmt.listPieces body) other.pieces ++ [.glue "\n"]
  | .cond (some fs) test body other =>
    Piece.enclosed fs (Piece.conditional test (Stmt.listPieces body) other.pieces)
  | .loop [] test post body => Piece.loop [] test post (Stmt.listPieces body) ++ [.glue "\n"]
  | .loop [f] test post body =>
    Piece.loop [.fragment f] test post (Stmt.listPieces body) ++ [.glue "\n"]
  | .loop fs test post body =>
    Piece.enclosed fs (Piece.loop [] test post (Stmt.listPieces body))
  | .block body => Piece.braced (Stmt.listPieces body) ++ [.glue "\n"]
termination_by structural s => s

def Stmt.listPieces : List Stmt → List Piece
  | [] => []
  | s :: ss => s.pieces ++ Stmt.listPieces ss
termination_by structural ss => ss

def Branch.pieces : Branch → List Piece
  | .none => []
  | .block body => .glue " else " :: Piece.braced (Stmt.listPieces body)
  | .chain test body other =>
    .glue " else " :: Piece.conditional test (Stmt.listPieces body) other.pieces
  | .wrapped fs test body other =>
    .glue (" else " ++ opening)
      :: (Piece.enclosed fs (Piece.conditional test (Stmt.listPieces body) other.pieces)
        ++ [.glue closing])
termination_by structural b => b

end

/-- What stands before the body of a function. -/
def Func.head (f : Func) : String :=
  f.result.elim "void" Primitive.text ++ " " ++ f.name ++ "("
    ++ ", ".intercalate (f.params.map fun (t, n) => t.text ++ " " ++ n) ++ ") "

/-- The pieces of a function. -/
def Func.pieces (f : Func) : List Piece :=
  .glue f.head :: (Piece.braced (Stmt.listPieces f.body) ++ [.glue "\n"])

mutual

theorem Stmt.text_eq_join : ∀ s : Stmt, s.text = Piece.join s.pieces
  | .ret none | .ret (some v) => by simp [Stmt.text, Stmt.pieces, String.append_assoc]
  | .simple fs => by rw [Stmt.text, Stmt.pieces, Piece.join_lines]
  | .cond none test body other => by
    rw [Stmt.text, Stmt.pieces, Piece.join_append, Piece.join_conditional,
      Stmt.listText_eq_join body, Branch.text_eq_join other]
    simp
  | .cond (some fs) test body other => by
    rw [Stmt.text, Stmt.pieces, Piece.join_enclosed, Piece.join_conditional,
      Stmt.listText_eq_join body, Branch.text_eq_join other]
  | .loop [] test post body => by
    rw [Stmt.text, Stmt.pieces, Piece.join_append, Piece.join_loop, Stmt.listText_eq_join body]
    simp
  | .loop [f] test post body => by
    rw [Stmt.text, Stmt.pieces, Piece.join_append, Piece.join_loop, Stmt.listText_eq_join body]
    simp
  | .loop (f :: g :: fs) test post body => by
    simp only [Stmt.text, Stmt.pieces, Piece.join_enclosed, Piece.join_loop, Piece.join_nil,
      Stmt.listText_eq_join body]
  | .block body => by
    rw [Stmt.text, Stmt.pieces, Piece.join_append, Piece.join_braced, Stmt.listText_eq_join body]
    simp

theorem Stmt.listText_eq_join : ∀ ss : List Stmt, Stmt.listText ss = Piece.join (Stmt.listPieces ss)
  | [] => rfl
  | s :: ss => by
    rw [Stmt.listText, Stmt.listPieces, Piece.join_append, Stmt.text_eq_join s,
      Stmt.listText_eq_join ss]

theorem Branch.text_eq_join : ∀ b : Branch, b.text = Piece.join b.pieces
  | .none => rfl
  | .block body => by
    rw [Branch.text, Branch.pieces, Piece.join_cons, Piece.join_braced, Stmt.listText_eq_join body]
    rfl
  | .chain test body other => by
    rw [Branch.text, Branch.pieces, Piece.join_cons, Piece.join_conditional,
      Stmt.listText_eq_join body, Branch.text_eq_join other]
    rfl
  | .wrapped fs test body other => by
    rw [Branch.text, Branch.pieces, Piece.join_cons, Piece.join_append, Piece.join_enclosed,
      Piece.join_conditional, Stmt.listText_eq_join body, Branch.text_eq_join other]
    simp [String.append_assoc]

end

theorem Func.text_eq_join (f : Func) : f.text = Piece.join f.pieces := by
  rw [Func.text, Func.pieces, Piece.join_cons, Piece.join_append, Piece.join_braced,
    Stmt.listText_eq_join, Func.head]
  simp [String.append_assoc]

end Recast.Target
