import Recast.Proofs.Pieces
import Recast.Scope

/-!
# The outline of a text

The pieces of a function's text, and among them where its regions are entered and left: what is
between the opening parenthesis of the parameters and the end of the function, between braces,
between the `for` of a header and the end of the loop's body. Joined, the entries of an outline are
the text (`Func.text_eq_outline`).

Along an outline a stack keeps what was declared in each region that is still open
(`Entry.opened`). So it can be said of every fragment which declarations it stands under, by the
text alone.
-/

namespace Recast.Target

/-- A region of a text. A declaration lasts until the region in which it stands is left. -/
inductive Region where
  /-- The parameters of a function, and its body. -/
  | params
  | braces
  /-- The header of a loop, and its body. -/
  | header
  deriving Repr, DecidableEq, Inhabited

/-- An entry of an outline: a piece of the text, or where a region begins or ends. -/
inductive Entry where
  | enter (region : Region)
  | leave (region : Region)
  | param (type : Primitive) (name : String)
  | piece (p : Piece)
  deriving Repr, DecidableEq, Inhabited

namespace Entry

/-- The region of a header ends with the closing brace of the body, that of the parameters with the
body of the function, so the end of neither has a text of its own. -/
def text : Entry → String
  | .enter .params => "("
  | .enter .braces => opening
  | .enter .header => "for("
  | .leave .braces => closing
  | .leave .params | .leave .header => ""
  | .param t n => t.text ++ " " ++ n
  | .piece p => p.text

/-- The text that entries make up. -/
def join (ps : List Entry) : String := String.join (ps.map text)

@[simp] theorem join_nil : join [] = "" := rfl

@[simp] theorem join_cons (p : Entry) (ps : List Entry) : join (p :: ps) = p.text ++ join ps :=
  String.join_cons

@[simp] theorem join_append (ps qs : List Entry) : join (ps ++ qs) = join ps ++ join qs := by
  rw [join, List.map_append, String.join_append]
  rfl

/-- Entries between which no region is entered or left. -/
def ofPieces (ps : List Piece) : List Entry := ps.map piece

@[simp] theorem join_ofPieces (ps : List Piece) : join (ofPieces ps) = Piece.join ps := by
  rw [join, ofPieces, List.map_map]
  rfl

abbrev glue (t : String) : Entry := .piece (.glue t)

/-! ## Layout -/

/-- Entries in a region of their own. -/
def region (r : Region) (inner : List Entry) : List Entry := .enter r :: (inner ++ [.leave r])

/-- A conditional and what follows its body. -/
def conditional (test : Expr) (body other : List Entry) : List Entry :=
  glue "if(" :: .piece (.expr test) :: glue ") " :: (region .braces body ++ other)

/-- A statement after fragments, in a block of their own. -/
def enclosed (fs : List Fragment) (inner : List Entry) : List Entry :=
  region .braces (ofPieces (Piece.lines fs) ++ (inner ++ [glue "\n"])) ++ [glue "\n"]

/-- A loop whose first clause is given as pieces. -/
def loop (init : List Piece) (test : Option Expr) (post : List Fragment) (body : List Entry) :
    List Entry :=
  region .header (ofPieces (init ++ .glue ";" :: (Piece.test test ++ .glue ";"
    :: (Piece.padded post ++ [.glue ") "]))) ++ region .braces body)

/-- The parameters of a function, apart. -/
def params : List (Primitive × String) → List Entry
  | [] => []
  | [(t, n)] => [.param t n]
  | (t, n) :: p :: ps => .param t n :: glue ", " :: params (p :: ps)

theorem join_braces (body : List Entry) :
    join (region .braces body) = Target.braced (join body) := by
  simp [region, text, Target.braced, String.append_assoc]

theorem join_conditional (test : Expr) (body other : List Entry) :
    join (conditional test body other) = Target.conditional test (join body) (join other) := by
  simp [conditional, join_braces, text, Target.conditional, String.append_assoc]

theorem join_enclosed (fs : List Fragment) (inner : List Entry) :
    join (enclosed fs inner) = Target.enclosed fs (join inner) := by
  simp [enclosed, region, text, Piece.join_lines, Target.enclosed, String.append_assoc]

theorem join_loop (init : List Piece) (test : Option Expr) (post : List Fragment)
    (body : List Entry) :
    join (loop init test post body) = Target.loop (Piece.join init) test post (join body) := by
  simp [loop, region, text, Piece.join_test, Piece.join_padded, Target.loop, Target.braced,
    String.append_assoc]

theorem join_params (ps : List (Primitive × String)) :
    join (params ps) = ", ".intercalate (ps.map fun (t, n) => t.text ++ " " ++ n) := by
  induction ps with
  | nil => rfl
  | cons p ps ih =>
    cases ps with
    | nil => simp [params, text]
    | cons q ps =>
      rw [params, join_cons, join_cons, ih]
      simp only [List.map_cons]
      rw [String.intercalate_cons_cons]
      simp only [text, Piece.text_glue, String.append_assoc]

end Entry

mutual

/-- The outline of a statement. -/
def Stmt.outline : Stmt → List Entry
  | .ret none => [Entry.glue "return;\n"]
  | .ret (some v) => Entry.ofPieces [.glue "return ", .expr v, .glue ";\n"]
  | .simple fs => Entry.ofPieces (Piece.lines fs)
  | .cond none test body other =>
    Entry.conditional test (Stmt.listOutline body) other.outline ++ [Entry.glue "\n"]
  | .cond (some fs) test body other =>
    Entry.enclosed fs (Entry.conditional test (Stmt.listOutline body) other.outline)
  | .loop [] test post body => Entry.loop [] test post (Stmt.listOutline body) ++ [Entry.glue "\n"]
  | .loop [f] test post body =>
    Entry.loop [.fragment f] test post (Stmt.listOutline body) ++ [Entry.glue "\n"]
  | .loop fs test post body => Entry.enclosed fs (Entry.loop [] test post (Stmt.listOutline body))
  | .block body => Entry.region .braces (Stmt.listOutline body) ++ [Entry.glue "\n"]
termination_by structural s => s

def Stmt.listOutline : List Stmt → List Entry
  | [] => []
  | s :: ss => s.outline ++ Stmt.listOutline ss
termination_by structural ss => ss

def Branch.outline : Branch → List Entry
  | .none => []
  | .block body => Entry.glue " else " :: Entry.region .braces (Stmt.listOutline body)
  | .chain test body other =>
    Entry.glue " else " :: Entry.conditional test (Stmt.listOutline body) other.outline
  | .wrapped fs test body other =>
    Entry.glue " else " :: Entry.region .braces
      (Entry.enclosed fs (Entry.conditional test (Stmt.listOutline body) other.outline))
termination_by structural b => b

end

/-- The outline of a function. -/
def Func.outline (f : Func) : List Entry :=
  Entry.glue (f.result.elim "void" Primitive.text ++ " " ++ f.name)
    :: (Entry.region .params (Entry.params f.params ++ Entry.glue ") "
      :: Entry.region .braces (Stmt.listOutline f.body)) ++ [Entry.glue "\n"])

/-! ## Joined, the outline is the text -/

mutual

theorem Stmt.text_eq_outline : ∀ s : Stmt, s.text = Entry.join s.outline
  | .ret none => rfl
  | .ret (some v) => by simp [Stmt.text, Stmt.outline, String.append_assoc]
  | .simple fs => by rw [Stmt.text, Stmt.outline, Entry.join_ofPieces, Piece.join_lines]
  | .cond none test body other => by
    rw [Stmt.text, Stmt.outline, Entry.join_append, Entry.join_conditional,
      Stmt.listText_eq_outline body, Branch.text_eq_outline other]
    rfl
  | .cond (some fs) test body other => by
    rw [Stmt.text, Stmt.outline, Entry.join_enclosed, Entry.join_conditional,
      Stmt.listText_eq_outline body, Branch.text_eq_outline other]
  | .loop [] test post body => by
    rw [Stmt.text, Stmt.outline, Entry.join_append, Entry.join_loop, Stmt.listText_eq_outline body]
    rfl
  | .loop [f] test post body => by
    rw [Stmt.text, Stmt.outline, Entry.join_append, Entry.join_loop, Stmt.listText_eq_outline body,
      Piece.join_cons, Piece.join_nil, String.append_empty]
    rfl
  | .loop (f :: g :: fs) test post body => by
    simp only [Stmt.text, Stmt.outline, Entry.join_enclosed, Entry.join_loop, Piece.join_nil,
      Stmt.listText_eq_outline body]
  | .block body => by
    rw [Stmt.text, Stmt.outline, Entry.join_append, Entry.join_braces,
      Stmt.listText_eq_outline body]
    rfl

theorem Stmt.listText_eq_outline : ∀ ss : List Stmt,
    Stmt.listText ss = Entry.join (Stmt.listOutline ss)
  | [] => rfl
  | s :: ss => by
    rw [Stmt.listText, Stmt.listOutline, Entry.join_append, Stmt.text_eq_outline s,
      Stmt.listText_eq_outline ss]

theorem Branch.text_eq_outline : ∀ b : Branch, b.text = Entry.join b.outline
  | .none => rfl
  | .block body => by
    rw [Branch.text, Branch.outline, Entry.join_cons, Entry.join_braces,
      Stmt.listText_eq_outline body]
    rfl
  | .chain test body other => by
    rw [Branch.text, Branch.outline, Entry.join_cons, Entry.join_conditional,
      Stmt.listText_eq_outline body, Branch.text_eq_outline other]
    rfl
  | .wrapped fs test body other => by
    rw [Branch.text, Branch.outline, Entry.join_cons, Entry.join_braces, Entry.join_enclosed,
      Entry.join_conditional, Stmt.listText_eq_outline body, Branch.text_eq_outline other]
    simp [Entry.text, Target.braced, String.append_assoc]

end

theorem Func.text_eq_outline (f : Func) : f.text = Entry.join f.outline := by
  rw [Func.text, Func.outline, Entry.join_cons, Entry.join_append, Stmt.listText_eq_outline,
    ← Entry.join_params]
  simp [Entry.region, Entry.text, Target.braced, String.append_assoc]

/-! ## Open regions -/

/-- The names declared in each region that is open, the innermost region first. -/
abbrev Regions := List (List String)

namespace Regions

/-- A declaration in the innermost region. -/
def declare (rs : Regions) (name : String) : Regions := (name :: rs.headD []) :: rs.tail

/-- A name is declared where the policy lets it be seen: in some region that is open, or in the
innermost one. -/
def Declares (policy : ScopePolicy) (rs : Regions) (name : String) : Prop :=
  match policy with
  | .isolated => name ∈ rs.headD []
  | .chained => ∃ r ∈ rs, name ∈ r

theorem declares_declare {policy : ScopePolicy} {rs : Regions} {m n : String} :
    (rs.declare n).Declares policy m ↔ m = n ∨ rs.Declares policy m := by
  cases policy with
  | isolated => simp [declare, Declares]
  | chained =>
    cases rs with
    | nil => simp [declare, Declares]
    | cons r rs => simp [declare, Declares, or_assoc]

theorem declares_enter {policy : ScopePolicy} {rs : Regions} {n : String} :
    Declares policy ([] :: rs) n ↔ policy = .chained ∧ rs.Declares policy n := by
  cases policy with
  | isolated => simp [Declares]
  | chained => simp [Declares]

end Regions

namespace Entry

/-- What is open after an entry. -/
def step (rs : Regions) : Entry → Regions
  | .enter _ => [] :: rs
  | .leave _ => rs.tail
  | .param _ n => rs.declare n
  | .piece (.fragment f) => f.declared?.elim rs rs.declare
  | .piece _ => rs

/-- What is open after entries. -/
def opened (rs : Regions) (ps : List Entry) : Regions := ps.foldl step rs

@[simp] theorem opened_nil (rs : Regions) : opened rs [] = rs := rfl

@[simp] theorem opened_cons (rs : Regions) (p : Entry) (ps : List Entry) :
    opened rs (p :: ps) = opened (step rs p) ps := rfl

@[simp] theorem opened_append (rs : Regions) (ps qs : List Entry) :
    opened rs (ps ++ qs) = opened (opened rs ps) qs :=
  List.foldl_append

end Entry

end Recast.Target
