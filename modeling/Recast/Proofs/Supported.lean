import Recast.Syntax.File
import Recast.Primitive
import Recast.Lowering.Expr
import Mathlib.Data.Set.Basic

/-!
# The supported functions

Which functions have a C++ form, said without lowering them. A type must be mapped
(`TypeExpr.Mapped`), an expression must be built from what C++ has (`Expr.Acceptable`), a statement
must have a regular shape by itself (`Stmt.Regular`), wherever it stands, and at each level the
names must fit, read from left to right (`LevelFits`). `Func.Supported` puts these together.

None of it mentions a source text. A function whose spans leave its source cannot be quoted, so
lowering it may fail for this reason too; `Source.Slices` says that given spans do not.
-/

namespace Recast

/-! ## Types and expressions -/

/-- A type that is the name of a primitive. -/
def TypeExpr.Mapped : TypeExpr → Prop
  | .named x => (Primitive.ofName? x.name).isSome = true
  | .unsupported _ => False

/-- The expressions that have a C++ form. Any call has one, be it a placeholder; but a call that
makes a message must have a first argument, which is kept. -/
inductive Expr.Acceptable : Expr → Prop
  | literal {text : String} {span : Span} : Acceptable (.literal text span)
  | name {x : Ident} : Acceptable (.name x)
  | binary {op : Operator} {l r : Expr} {span : Span} (hl : l.Acceptable) (hr : r.Acceptable) :
      Acceptable (.binary op l r span)
  | unary {op : Operator} {e : Expr} {span : Span} (ho : op.isUnary = true) (he : e.Acceptable) :
      Acceptable (.unary op e span)
  | paren {e : Expr} {span : Span} (he : e.Acceptable) : Acceptable (.paren e span)
  | call {callee : Expr} {args : List Expr} {span : Span} (hc : callee.idiom? = none) :
      Acceptable (.call callee args span)
  | message {callee first : Expr} {rest : List Expr} {span : Span}
      (hc : callee.idiom?.isSome = true) (hf : first.Acceptable) :
      Acceptable (.call callee (first :: rest) span)

/-! ## Statements by themselves -/

/-- A specification whose type is mapped, if it has one, with no values or one for each name. -/
structure ValueSpec.Regular (spec : ValueSpec) : Prop where
  type : ∀ t ∈ spec.type, t.Mapped
  values : spec.values = [] ∨ spec.values.length = spec.names.length
  acceptable : ∀ e ∈ spec.values, e.Acceptable

/-- A statement of a supported shape. The blocks in it and what follows its `else` are statements
of their own right. -/
def Stmt.Regular : Stmt → Prop
  | .ret results _ => results.length ≤ 1 ∧ ∀ e ∈ results, e.Acceptable
  | .assign lhs op rhs _ =>
    op.isAssignment = true ∧ lhs.length = rhs.length ∧ (∀ e ∈ rhs, e.Acceptable) ∧
      if op = .define then ∀ e ∈ lhs, ∃ x, e = .name x else ∀ e ∈ lhs, e.Acceptable
  | .decl _ specs _ => ∀ spec ∈ specs, spec.Regular
  | .step operand _ _ => operand.Acceptable
  | .cond init test _ other _ =>
    (∀ s ∈ init, s.isSimple = true) ∧ test.Acceptable ∧ ∀ s ∈ other, s.isBranch = true
  | .loop init test post _ _ =>
    (∀ s ∈ init, s.isSimple = true) ∧ (∀ e ∈ test, e.Acceptable) ∧
      ∀ s ∈ post, s.isSimple = true
  | .block _ => True
  | .unsupported _ => False

mutual

/-- A statement and the statements inside it, at every depth. -/
def Stmt.nested : Stmt → List Stmt
  | .cond init test body other span =>
    .cond init test body other span
      :: (init.toList ++ body.nested ++ Stmt.otherNested other)
  | .loop init test post body span =>
    .loop init test post body span :: (init.toList ++ post.toList ++ body.nested)
  | .block body => .block body :: body.nested
  | .ret results span => [.ret results span]
  | .assign lhs op rhs span => [.assign lhs op rhs span]
  | .decl kind specs span => [.decl kind specs span]
  | .step operand op span => [.step operand op span]
  | .unsupported span => [.unsupported span]
termination_by structural s => s

def Stmt.otherNested : Option Stmt → List Stmt
  | none => []
  | some s => s.nested
termination_by structural s => s

def Stmt.listNested : List Stmt → List Stmt
  | [] => []
  | s :: ss => s.nested ++ Stmt.listNested ss
termination_by structural ss => ss

/-- The statements of a block, at every depth. -/
def Block.nested : Block → List Stmt
  | .mk ss _ => Stmt.listNested ss
termination_by structural b => b

end

/-! ## Names at a level -/

/-- The names that are not blank, in order. -/
def Ident.visible (xs : List Ident) : List String :=
  (xs.filter fun x => !x.isBlank).map Ident.name

/-- The names that a statement makes known at its level. -/
def Stmt.introduced : Stmt → List String
  | .assign lhs op _ _ =>
    if op = .define then Ident.visible (lhs.filterMap Expr.name?) else []
  | .decl _ specs _ => Ident.visible (specs.flatMap ValueSpec.names)
  | _ => []

/-- Names are new where `seen` are known, and no two of them are the same. -/
structure New (seen : Set String) (names : List String) : Prop where
  nodup : names.Nodup
  unseen : ∀ n ∈ names, n ∉ seen

theorem New.append_iff {seen : Set String} {xs ys : List String} :
    New seen (xs ++ ys) ↔ New seen xs ∧ New (seen ∪ {n | n ∈ xs}) ys := by
  constructor
  · intro h
    obtain ⟨hd, hu⟩ := h
    obtain ⟨hx, hy, hxy⟩ := List.nodup_append.1 hd
    refine ⟨⟨hx, fun n hn => hu n (List.mem_append_left ys hn)⟩, ⟨hy, ?_⟩⟩
    intro n hn h
    rcases h with h | h
    · exact hu n (List.mem_append_right xs hn) h
    · exact hxy n h n hn rfl
  · intro h
    obtain ⟨hx, hy⟩ := h
    refine ⟨List.nodup_append.2 ⟨hx.nodup, hy.nodup, ?_⟩, ?_⟩
    · intro m hm n hn e
      exact hy.unseen n hn (.inr (e ▸ hm))
    · intro n hn
      rcases List.mem_append.1 hn with hn | hn
      · exact hx.unseen n hn
      · exact fun h => hy.unseen n hn (.inl h)

theorem New.nil (seen : Set String) : New seen [] := ⟨List.nodup_nil, by simp⟩

theorem New.singleton_iff {seen : Set String} {n : String} : New seen [n] ↔ n ∉ seen := by
  constructor
  · intro h
    exact h.unseen n List.mem_cons_self
  · intro h
    exact ⟨by simp, by simpa using h⟩

namespace Ident

theorem visible_append (xs ys : List Ident) : visible (xs ++ ys) = visible xs ++ visible ys := by
  simp [visible]

theorem visible_cons (x : Ident) (xs : List Ident) :
    visible (x :: xs) = visible [x] ++ visible xs :=
  visible_append [x] xs

theorem visible_of_blank {x : Ident} (hb : x.isBlank = true) : visible [x] = [] := by
  simp [visible, hb]

theorem visible_of_not_blank {x : Ident} (hb : x.isBlank = false) : visible [x] = [x.name] := by
  simp [visible, hb]

theorem mem_visible {xs : List Ident} {n : String} :
    n ∈ visible xs ↔ ∃ x ∈ xs, x.isBlank = false ∧ x.name = n := by
  simp [visible, and_assoc]

end Ident

/-- The names of a `var` or `const` are new at its level; a `:=` brings a new name, unless it has
no names at all. -/
def Stmt.Fresh (seen : Set String) : Stmt → Prop
  | .assign lhs op rhs span =>
    op = .define → lhs = [] ∨ ∃ n ∈ (Stmt.assign lhs op rhs span).introduced, n ∉ seen
  | .decl kind specs span => New seen (Stmt.decl kind specs span).introduced
  | .ret .. | .step .. | .cond .. | .loop .. | .block _ | .unsupported _ => True

/-- The statements of a level fit one after the other, each with the names made known before. -/
def LevelFits : Set String → List Stmt → Prop
  | _, [] => True
  | seen, s :: ss => s.Fresh seen ∧ LevelFits (seen ∪ {n | n ∈ s.introduced}) ss

mutual

/-- The levels opened inside a statement: of a header its clauses, of a block its statements. A
conditional after `else` that shares a header has no clauses to add to it. -/
def Stmt.levels : Stmt → List (List Stmt)
  | .cond init _ body other _ => init.toList :: (body.levels ++ Stmt.otherLevels other)
  | .loop init _ post body _ => (init.toList ++ post.toList) :: body.levels
  | .block body => body.levels
  | .ret .. | .assign .. | .decl .. | .step .. | .unsupported _ => []
termination_by structural s => s

def Stmt.otherLevels : Option Stmt → List (List Stmt)
  | none => []
  | some s => s.levels
termination_by structural s => s

def Stmt.listLevels : List Stmt → List (List Stmt)
  | [] => []
  | s :: ss => s.levels ++ Stmt.listLevels ss
termination_by structural ss => ss

/-- The level of a block and those inside it. -/
def Block.levels : Block → List (List Stmt)
  | .mk ss _ => ss :: Stmt.listLevels ss
termination_by structural b => b

end

/-- What is checked inside a statement does not depend on the names known around it. -/
structure Inside (nested : List Stmt) (levels : List (List Stmt)) : Prop where
  regular : ∀ s ∈ nested, s.Regular
  fits : ∀ level ∈ levels, LevelFits ∅ level

theorem Inside.append_iff {xs ys : List Stmt} {ls ms : List (List Stmt)} :
    Inside (xs ++ ys) (ls ++ ms) ↔ Inside xs ls ∧ Inside ys ms := by
  constructor
  · intro h
    obtain ⟨hr, hf⟩ := h
    rw [List.forall_mem_append] at hr hf
    exact ⟨⟨hr.1, hf.1⟩, ⟨hr.2, hf.2⟩⟩
  · intro h
    obtain ⟨hx, hy⟩ := h
    exact ⟨List.forall_mem_append.2 ⟨hx.regular, hy.regular⟩,
      List.forall_mem_append.2 ⟨hx.fits, hy.fits⟩⟩

theorem Inside.nil : Inside [] [] := ⟨by simp, by simp⟩

/-- A statement that opens no level. -/
theorem Inside.singleton_iff {s : Stmt} : Inside [s] [] ↔ s.Regular := by
  constructor
  · intro h
    exact h.regular s List.mem_cons_self
  · intro h
    exact ⟨by simpa using h, by simp⟩

/-- A header: its clauses are a level of their own, and have nothing inside. -/
theorem Inside.header_iff {s : Stmt} {clauses ys : List Stmt} {ms : List (List Stmt)} :
    Inside (s :: (clauses ++ ys)) (clauses :: ms) ↔
      s.Regular ∧ (∀ i ∈ clauses, i.Regular) ∧ LevelFits ∅ clauses ∧ Inside ys ms := by
  constructor
  · intro h
    obtain ⟨hr, hf⟩ := h
    rw [List.forall_mem_cons, List.forall_mem_append] at hr
    rw [List.forall_mem_cons] at hf
    exact ⟨hr.1, hr.2.1, hf.1, ⟨hr.2.2, hf.2⟩⟩
  · intro h
    obtain ⟨hs, hc, hl, hy⟩ := h
    exact ⟨List.forall_mem_cons.2 ⟨hs, List.forall_mem_append.2 ⟨hc, hy.regular⟩⟩,
      List.forall_mem_cons.2 ⟨hl, hy.fits⟩⟩

theorem Inside.block_iff {body : Block} {nested : List Stmt} {levels : List (List Stmt)} :
    Inside (.block body :: nested) levels ↔ Inside nested levels := by
  constructor
  · intro h
    obtain ⟨hr, hf⟩ := h
    exact ⟨(List.forall_mem_cons.1 hr).2, hf⟩
  · intro h
    obtain ⟨hr, hf⟩ := h
    exact ⟨List.forall_mem_cons.2 ⟨trivial, hr⟩, hf⟩

theorem Inside.level_iff {level nested : List Stmt} {levels : List (List Stmt)} :
    Inside nested (level :: levels) ↔ LevelFits ∅ level ∧ Inside nested levels := by
  constructor
  · intro h
    obtain ⟨hr, hf⟩ := h
    rw [List.forall_mem_cons] at hf
    exact ⟨hf.1, hr, hf.2⟩
  · intro h
    obtain ⟨hl, hr, hf⟩ := h
    exact ⟨hr, List.forall_mem_cons.2 ⟨hl, hf⟩⟩

theorem LevelFits.append_iff {xs ys : List Stmt} {seen : Set String} :
    LevelFits seen (xs ++ ys) ↔
      LevelFits seen xs ∧ LevelFits (seen ∪ {n | n ∈ xs.flatMap Stmt.introduced}) ys := by
  induction xs generalizing seen with
  | nil => simp [LevelFits]
  | cons x xs ih =>
    have hu : seen ∪ {n | n ∈ x.introduced} ∪ {n | n ∈ xs.flatMap Stmt.introduced} =
        seen ∪ {n | n ∈ (x :: xs).flatMap Stmt.introduced} := by
      ext n
      simp [or_assoc]
    rw [List.cons_append, LevelFits, LevelFits, ih, hu, and_assoc]

theorem LevelFits.option_iff {s : Option Stmt} {seen : Set String} :
    LevelFits seen s.toList ↔ ∀ i ∈ s, i.Fresh seen := by
  cases s with
  | none => simp [LevelFits]
  | some s => simp [LevelFits]

theorem flatMap_toList_introduced (s : Option Stmt) :
    s.toList.flatMap Stmt.introduced = s.elim [] Stmt.introduced := by
  cases s <;> simp

theorem Inside.cond_iff {init : Option Stmt} {test : Expr} {body : Block} {other : Option Stmt}
    {span : Span} :
    Inside (Stmt.cond init test body other span).nested
        (Stmt.cond init test body other span).levels ↔
      (∀ i ∈ init, i.isSimple = true ∧ i.Regular ∧ i.Fresh ∅) ∧ test.Acceptable ∧
        Inside body.nested body.levels ∧ (∀ s ∈ other, s.isBranch = true) ∧
        Inside (Stmt.otherNested other) (Stmt.otherLevels other) := by
  rw [Stmt.nested, List.append_assoc, Stmt.levels, Inside.header_iff, Inside.append_iff,
    LevelFits.option_iff, Stmt.Regular]
  simp only [Option.mem_toList]
  constructor
  · intro h
    obtain ⟨⟨hs, ht, ho⟩, hr, hf, hb, hn⟩ := h
    exact ⟨fun i hi => ⟨hs i hi, hr i hi, hf i hi⟩, ht, hb, ho, hn⟩
  · intro h
    obtain ⟨hi, ht, hb, ho, hn⟩ := h
    exact ⟨⟨fun i h => (hi i h).1, ht, ho⟩, fun i h => (hi i h).2.1, fun i h => (hi i h).2.2,
      hb, hn⟩

theorem Inside.loop_iff {init : Option Stmt} {test : Option Expr} {post : Option Stmt}
    {body : Block} {span : Span} :
    Inside (Stmt.loop init test post body span).nested
        (Stmt.loop init test post body span).levels ↔
      (∀ i ∈ init, i.isSimple = true ∧ i.Regular ∧ i.Fresh ∅) ∧ (∀ e ∈ test, e.Acceptable) ∧
        (∀ i ∈ post, i.isSimple = true ∧ i.Regular ∧
          i.Fresh (∅ ∪ {n | n ∈ init.elim [] Stmt.introduced})) ∧
        Inside body.nested body.levels := by
  rw [Stmt.nested, Stmt.levels, Inside.header_iff, LevelFits.append_iff, LevelFits.option_iff,
    LevelFits.option_iff, flatMap_toList_introduced, List.forall_mem_append, Stmt.Regular]
  simp only [Option.mem_toList]
  constructor
  · intro h
    obtain ⟨⟨hs, ht, hp⟩, ⟨hr, hq⟩, ⟨hf, hg⟩, hb⟩ := h
    exact ⟨fun i hi => ⟨hs i hi, hr i hi, hf i hi⟩, ht,
      fun i hi => ⟨hp i hi, hq i hi, hg i hi⟩, hb⟩
  · intro h
    obtain ⟨hi, ht, hp, hb⟩ := h
    exact ⟨⟨fun i h => (hi i h).1, ht, fun i h => (hp i h).1⟩,
      ⟨fun i h => (hi i h).2.1, fun i h => (hp i h).2.1⟩,
      ⟨fun i h => (hi i h).2.2, fun i h => (hp i h).2.2⟩, hb⟩

/-! ## Functions -/

/-- A function of the supported subset. -/
structure Func.Supported (f : Func) : Prop where
  /-- There is at most one result. -/
  arity : ∀ r ∈ f.results, r.arity ≤ 1
  result : ∀ r ∈ f.results, ∀ field ∈ r.fields, field.type.Mapped
  params : ∀ field ∈ f.params.fields, field.type.Mapped ∧ field.names ≠ []
  distinct : (Ident.visible (f.params.fields.flatMap Field.names)).Nodup
  statements : ∀ b ∈ f.body, ∀ s ∈ b.nested, s.Regular
  levels : ∀ b ∈ f.body, ∀ level ∈ b.levels, LevelFits ∅ level

/-! ## Spans -/

mutual

/-- The spans of an expression, at every depth. -/
def Expr.spans : Expr → List Span
  | .literal _ span | .unsupported span => [span]
  | .name x => [x.span]
  | .binary _ l r span => span :: (l.spans ++ r.spans)
  | .unary _ e span | .paren e span => span :: e.spans
  | .call callee args span => span :: (callee.spans ++ Expr.listSpans args)
  | .selector e field span => span :: field.span :: e.spans
termination_by structural e => e

def Expr.listSpans : List Expr → List Span
  | [] => []
  | e :: es => e.spans ++ Expr.listSpans es
termination_by structural es => es

end

def ValueSpec.spans (spec : ValueSpec) : List Span :=
  spec.span :: (spec.names.map Ident.span ++ spec.type.toList.map TypeExpr.span
    ++ Expr.listSpans spec.values)

mutual

/-- The spans of a statement, at every depth. -/
def Stmt.spans : Stmt → List Span
  | .ret results span => span :: Expr.listSpans results
  | .assign lhs _ rhs span => span :: (Expr.listSpans lhs ++ Expr.listSpans rhs)
  | .decl _ specs span => span :: specs.flatMap ValueSpec.spans
  | .step operand _ span => span :: operand.spans
  | .cond init test body other span =>
    span :: (Stmt.optionSpans init ++ test.spans ++ body.spans ++ Stmt.optionSpans other)
  | .loop init test post body span =>
    span :: (Stmt.optionSpans init ++ test.elim [] Expr.spans ++ Stmt.optionSpans post
      ++ body.spans)
  | .block body => body.spans
  | .unsupported span => [span]
termination_by structural s => s

def Stmt.optionSpans : Option Stmt → List Span
  | none => []
  | some s => s.spans
termination_by structural s => s

def Stmt.listSpans : List Stmt → List Span
  | [] => []
  | s :: ss => s.spans ++ Stmt.listSpans ss
termination_by structural ss => ss

/-- The spans of a block, at every depth. -/
def Block.spans : Block → List Span
  | .mk ss span => span :: Stmt.listSpans ss
termination_by structural b => b

end

def Field.spans (field : Field) : List Span :=
  field.span :: field.type.span :: field.names.map Ident.span

def FieldList.spans (fs : FieldList) : List Span := fs.span :: fs.fields.flatMap Field.spans

/-- The spans of a function, at every depth. -/
def Func.spans (f : Func) : List Span :=
  f.span :: f.name.span :: (f.params.spans ++ f.results.elim [] FieldList.spans
    ++ f.body.elim [] Block.spans)

/-- Spans that are all ranges of a source text. -/
def Source.Slices (src : Source) (spans : List Span) : Prop :=
  ∀ span ∈ spans, (src.slice? span).isSome = true

namespace Source

variable {src : Source} {xs ys : List Span}

@[simp] theorem slices_append : src.Slices (xs ++ ys) ↔ src.Slices xs ∧ src.Slices ys :=
  List.forall_mem_append

@[simp] theorem slices_cons {x : Span} :
    src.Slices (x :: xs) ↔ (src.slice? x).isSome = true ∧ src.Slices xs :=
  List.forall_mem_cons

end Source

end Recast
