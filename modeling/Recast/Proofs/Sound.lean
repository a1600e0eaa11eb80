import Recast.Proofs.Derivation

/-!
# Sound spans

What it is for the spans of a tree to be sound in a source text. The span of every node is a range
of the text that is not empty, the spans of its parts lie in it, apart and in order
(`Source.Frames`), and names and literals are the text at their spans. `Expr.Sound` says so of an
expression and all that is in it; for statements and files it is said for any claim `P` about the
expressions in them (`Stmt.Sound`, `File.Sound`), as what is known of these may be more than that
their spans are sound.

Expressions stand in many places of a file. `File.exprs` lists them, so that a claim that holds of
all places holds of all expressions (`File.Sound.forall_mem_exprs`).
-/

namespace Recast

open Forest (hull)

/-- The span of a node cuts the text, is not empty and holds the spans of its parts. -/
structure Source.Frames (src : Source) (span : Span) (parts : List Span) : Prop where
  covers : src.Covers span
  holds : span.Holds parts

theorem Source.Frames.cuts {src : Source} {span : Span} {parts : List Span}
    (h : src.Frames span parts) : src.Cuts span :=
  h.covers.toCuts

/-! ## Names, types and expressions -/

/-- A name is the text at its span, and has characters. -/
structure Ident.Sound (src : Source) (x : Ident) : Prop where
  slice : src.slice? x.span = some x.name
  nonempty : x.span.start < x.span.stop

theorem Ident.Sound.cuts {src : Source} {x : Ident} (h : x.Sound src) : src.Cuts x.span :=
  .of_slice? h.slice

def TypeExpr.Sound (src : Source) : TypeExpr → Prop
  | .named x => x.Sound src
  | .unsupported span => src.Covers span

theorem TypeExpr.Sound.cuts {src : Source} {type : TypeExpr} (h : type.Sound src) :
    src.Cuts type.span := by
  cases type with
  | named x => exact Ident.Sound.cuts h
  | unsupported span => exact Source.Covers.toCuts h

/-- The spans of an expression and of all that is in it are sound. -/
inductive Expr.Sound (src : Source) : Expr → Prop
  | literal {text : String} {span : Span} (hs : src.slice? span = some text)
      (hn : span.start < span.stop) : Sound src (.literal text span)
  | name {x : Ident} (hx : x.Sound src) : Sound src (.name x)
  | binary {op : Operator} {l r : Expr} {span : Span} (hs : src.Frames span [l.span, r.span])
      (hl : Sound src l) (hr : Sound src r) : Sound src (.binary op l r span)
  | unary {op : Operator} {e : Expr} {span : Span} (hs : src.Frames span [e.span])
      (he : Sound src e) : Sound src (.unary op e span)
  | paren {e : Expr} {span : Span} (hs : src.Frames span [e.span]) (he : Sound src e) :
      Sound src (.paren e span)
  | call {callee : Expr} {args : List Expr} {span : Span}
      (hs : src.Frames span (callee.span :: args.map Expr.span)) (hf : Sound src callee)
      (ha : ∀ a ∈ args, Sound src a) : Sound src (.call callee args span)
  | selector {e : Expr} {x : Ident} {span : Span} (hs : src.Frames span [e.span, x.span])
      (he : Sound src e) (hx : x.Sound src) : Sound src (.selector e x span)
  | unsupported {span : Span} (hs : src.Covers span) : Sound src (.unsupported span)

theorem Expr.Sound.covers {src : Source} {e : Expr} (h : e.Sound src) : src.Covers e.span := by
  cases h with
  | literal hs hn => exact ⟨.of_slice? hs, hn⟩
  | name hx => exact ⟨hx.cuts, hx.nonempty⟩
  | binary hs | unary hs | paren hs | call hs | selector hs => exact hs.covers
  | unsupported hs => exact hs

/-! ## Statements -/

/-- The names, the type and the values of a specification, in this order. -/
def ValueSpec.parts (spec : ValueSpec) : List Span :=
  spec.names.map Ident.span ++ spec.type.toList.map TypeExpr.span ++ spec.values.map Expr.span

structure ValueSpec.Sound (src : Source) (P : Expr → Prop) (spec : ValueSpec) : Prop where
  frames : src.Frames spec.span spec.parts
  names : ∀ x ∈ spec.names, x.Sound src
  type : ∀ type ∈ spec.type, type.Sound src
  values : ∀ e ∈ spec.values, P e

mutual

/-- The spans of a statement and of the statements in it are sound, and `P` holds of the
expressions in them. -/
inductive Stmt.Sound (src : Source) (P : Expr → Prop) : Stmt → Prop
  | ret {results : List Expr} {span : Span} (hs : src.Frames span (results.map Expr.span))
      (hr : ∀ e ∈ results, P e) : Stmt.Sound src P (.ret results span)
  | assign {lhs rhs : List Expr} {op : Operator} {span : Span}
      (hs : src.Frames span (lhs.map Expr.span ++ rhs.map Expr.span))
      (hl : ∀ e ∈ lhs, P e) (hr : ∀ e ∈ rhs, P e) : Stmt.Sound src P (.assign lhs op rhs span)
  | decl {kind : DeclKind} {specs : List ValueSpec} {span : Span}
      (hs : src.Frames span (specs.map ValueSpec.span)) (hp : ∀ s ∈ specs, s.Sound src P) :
      Stmt.Sound src P (.decl kind specs span)
  | step {e : Expr} {op : Operator} {span : Span} (hs : src.Frames span [e.span]) (he : P e) :
      Stmt.Sound src P (.step e op span)
  | cond {init other : Option Stmt} {test : Expr} {body : Block} {span : Span}
      (hs : src.Frames span (init.toList.map Stmt.span ++ [test.span, body.span]
        ++ other.toList.map Stmt.span))
      (hi : ∀ s ∈ init, Stmt.Sound src P s) (ht : P test) (hb : Block.Sound src P body)
      (ho : ∀ s ∈ other, Stmt.Sound src P s) : Stmt.Sound src P (.cond init test body other span)
  | loop {init post : Option Stmt} {test : Option Expr} {body : Block} {span : Span}
      (hs : src.Frames span (init.toList.map Stmt.span ++ test.toList.map Expr.span
        ++ post.toList.map Stmt.span ++ [body.span]))
      (hi : ∀ s ∈ init, Stmt.Sound src P s) (ht : ∀ e ∈ test, P e)
      (hp : ∀ s ∈ post, Stmt.Sound src P s) (hb : Block.Sound src P body) :
      Stmt.Sound src P (.loop init test post body span)
  | block {body : Block} (hb : Block.Sound src P body) : Stmt.Sound src P (.block body)
  | unsupported {span : Span} (hs : src.Covers span) : Stmt.Sound src P (.unsupported span)

inductive Block.Sound (src : Source) (P : Expr → Prop) : Block → Prop
  | mk {stmts : List Stmt} {span : Span} (hs : src.Frames span (stmts.map Stmt.span))
      (hb : ∀ s ∈ stmts, Stmt.Sound src P s) : Block.Sound src P (.mk stmts span)

end

theorem Block.Sound.covers {src : Source} {P : Expr → Prop} {b : Block} (h : b.Sound src P) :
    src.Covers b.span := by
  cases h with
  | mk hs => exact hs.covers

theorem Stmt.Sound.covers {src : Source} {P : Expr → Prop} {s : Stmt} (h : s.Sound src P) :
    src.Covers s.span := by
  cases h with
  | ret hs | assign hs | decl hs | step hs | cond hs | loop hs => exact hs.covers
  | block hb => exact hb.covers
  | unsupported hs => exact hs

/-! ## Functions and files -/

/-- A field with `...` is kept as one type over the name too, so the type is not apart from the
names. -/
structure Field.Sound (src : Source) (f : Field) : Prop where
  frames : src.Frames f.span (f.names.map Ident.span)
  typeInside : f.span.Encloses f.type.span
  names : ∀ x ∈ f.names, x.Sound src
  type : f.type.Sound src

structure FieldList.Sound (src : Source) (fs : FieldList) : Prop where
  frames : src.Frames fs.span (fs.fields.map Field.span)
  fields : ∀ f ∈ fs.fields, f.Sound src

/-- The name, the parameters, the results and the body of a function. -/
def Func.parts (f : Func) : List Span :=
  f.name.span :: f.params.span
    :: (f.results.toList.map FieldList.span ++ f.body.toList.map Block.span)

structure Func.Sound (src : Source) (P : Expr → Prop) (f : Func) : Prop where
  frames : src.Frames f.span f.parts
  name : f.name.Sound src
  params : f.params.Sound src
  results : ∀ fs ∈ f.results, fs.Sound src
  body : ∀ b ∈ f.body, b.Sound src P

namespace Item

def span : Item → Span
  | .func f => f.span
  | .other _ s => s

def Sound (src : Source) (P : Expr → Prop) : Item → Prop
  | .func f => f.Sound src P
  | .other _ s => src.Covers s

end Item

/-- The span of a file may be empty. -/
structure File.Sound (src : Source) (P : Expr → Prop) (f : File) : Prop where
  cuts : src.Cuts f.span
  holds : f.span.Holds (f.items.map Item.span)
  items : ∀ i ∈ f.items, i.Sound src P

theorem File.mem_funcs {f : File} {g : Func} : g ∈ f.funcs ↔ .func g ∈ f.items := by
  rw [File.funcs, List.mem_filterMap]
  constructor
  · rintro ⟨i, hi, he⟩
    cases i with
    | func g' =>
      cases he
      exact hi
    | other kind span => cases he
  · exact fun hg => ⟨_, hg, rfl⟩

theorem File.Sound.funcs {src : Source} {P : Expr → Prop} {f : File} (h : f.Sound src P) :
    ∀ g ∈ f.funcs, g.Sound src P :=
  fun _ hg => h.items _ (File.mem_funcs.1 hg)

/-! ## The expressions of a file -/

mutual

/-- An expression and all that are in it. -/
def Expr.parts : Expr → List Expr
  | .binary op l r s => .binary op l r s :: (l.parts ++ r.parts)
  | .unary op e s => .unary op e s :: e.parts
  | .paren e s => .paren e s :: e.parts
  | .call f as s => .call f as s :: (f.parts ++ Expr.partsList as)
  | .selector e x s => .selector e x s :: e.parts
  | .literal t s => [.literal t s]
  | .name x => [.name x]
  | .unsupported s => [.unsupported s]

def Expr.partsList : List Expr → List Expr
  | [] => []
  | e :: es => e.parts ++ Expr.partsList es

end

mutual

/-- The expressions that stand in a statement, those that are in others left out. -/
def Stmt.exprs : Stmt → List Expr
  | .ret results _ => results
  | .assign lhs _ rhs _ => lhs ++ rhs
  | .decl _ specs _ => specs.flatMap ValueSpec.values
  | .step e _ _ => [e]
  | .cond init test body other _ =>
    Stmt.optionExprs init ++ test :: (body.exprs ++ Stmt.optionExprs other)
  | .loop init test post body _ =>
    Stmt.optionExprs init ++ test.toList ++ Stmt.optionExprs post ++ body.exprs
  | .block body => body.exprs
  | .unsupported _ => []
termination_by structural s => s

def Stmt.optionExprs : Option Stmt → List Expr
  | none => []
  | some s => s.exprs
termination_by structural s => s

def Stmt.listExprs : List Stmt → List Expr
  | [] => []
  | s :: ss => s.exprs ++ Stmt.listExprs ss
termination_by structural ss => ss

def Block.exprs : Block → List Expr
  | .mk ss _ => Stmt.listExprs ss
termination_by structural b => b

end

/-- The expressions that stand in the functions of a file. -/
def File.exprs (f : File) : List Expr :=
  f.funcs.flatMap fun g => g.body.toList.flatMap Block.exprs

mutual

theorem Stmt.Sound.forall_mem_exprs {src : Source} {P : Expr → Prop} :
    ∀ {s : Stmt}, s.Sound src P → ∀ e ∈ s.exprs, P e
  | .ret results span, h => by
    cases h with
    | ret hs hr => exact hr
  | .assign lhs op rhs span, h => by
    cases h with
    | assign hs hl hr => exact List.forall_mem_append.2 ⟨hl, hr⟩
  | .decl kind specs span, h => by
    cases h with
    | decl hs hp =>
      intro e he
      obtain ⟨spec, hspec, hv⟩ := List.mem_flatMap.1 he
      exact (hp spec hspec).values e hv
  | .step e op span, h => by
    cases h with
    | step hs he => exact List.forall_mem_singleton.2 he
  | .cond init test body other span, h => by
    cases h with
    | cond hs hi ht hb ho =>
      have hi' := Stmt.Sound.forall_mem_optionExprs hi
      have ho' := Stmt.Sound.forall_mem_optionExprs ho
      exact List.forall_mem_append.2 ⟨hi', List.forall_mem_cons.2
        ⟨ht, List.forall_mem_append.2 ⟨Block.Sound.forall_mem_exprs hb, ho'⟩⟩⟩
  | .loop init test post body span, h => by
    cases h with
    | loop hs hi ht hp hb =>
      have hi' := Stmt.Sound.forall_mem_optionExprs hi
      have hp' := Stmt.Sound.forall_mem_optionExprs hp
      have ht' : ∀ e ∈ test.toList, P e := fun e he => ht e (Option.mem_toList.1 he)
      have hb' := Block.Sound.forall_mem_exprs hb
      exact List.forall_mem_append.2 ⟨List.forall_mem_append.2
        ⟨List.forall_mem_append.2 ⟨hi', ht'⟩, hp'⟩, hb'⟩
  | .block body, h => by
    cases h with
    | block hb => exact Block.Sound.forall_mem_exprs hb
  | .unsupported span, h => by simp [Stmt.exprs]

theorem Stmt.Sound.forall_mem_optionExprs {src : Source} {P : Expr → Prop} :
    ∀ {s : Option Stmt}, (∀ t ∈ s, t.Sound src P) → ∀ e ∈ Stmt.optionExprs s, P e
  | none, _ => by simp [Stmt.optionExprs]
  | some s, h => Stmt.Sound.forall_mem_exprs (h s rfl)

theorem Stmt.Sound.forall_mem_listExprs {src : Source} {P : Expr → Prop} :
    ∀ {ss : List Stmt}, (∀ s ∈ ss, s.Sound src P) → ∀ e ∈ Stmt.listExprs ss, P e
  | [], _ => by simp [Stmt.listExprs]
  | s :: ss, h => by
    have hs := Stmt.Sound.forall_mem_exprs (h s List.mem_cons_self)
    have hr := Stmt.Sound.forall_mem_listExprs fun t ht => h t (List.mem_cons_of_mem s ht)
    exact List.forall_mem_append.2 ⟨hs, hr⟩

theorem Block.Sound.forall_mem_exprs {src : Source} {P : Expr → Prop} :
    ∀ {b : Block}, b.Sound src P → ∀ e ∈ b.exprs, P e
  | .mk ss span, h => by
    cases h with
    | mk hs hb => exact Stmt.Sound.forall_mem_listExprs hb

end

/-- What holds wherever expressions stand in a file holds of all of them. -/
theorem File.Sound.forall_mem_exprs {src : Source} {P : Expr → Prop} {f : File}
    (h : f.Sound src P) : ∀ e ∈ f.exprs, P e := by
  intro e he
  obtain ⟨g, hg, he⟩ := List.mem_flatMap.1 he
  obtain ⟨b, hb, he⟩ := List.mem_flatMap.1 he
  exact ((h.funcs g hg).body b (Option.mem_toList.1 hb)).forall_mem_exprs e he

end Recast
