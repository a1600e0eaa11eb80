import Mathlib.Data.List.Forall2
import Mathlib.Data.Option.Basic
import Recast.Proofs.Unplaced
import Recast.Degradation

/-!
# Trees alike in two texts

Two trees whose nodes correspond, each with a text of its own (`Expr.Twin`, `Stmt.Twin`). The
relation is made for any correspondence of spans (`Comparison`): what is proved of it holds for two
trees that are equal up to spans (`Stmt.twin_of_unplaced`), and for a tree beside itself.
-/

namespace Recast

/-- Two texts, and what corresponds in them: the spans of the same node, the spans of the same call,
and what is lost in such calls, each quoted from its own text. -/
structure Comparison where
  left : Source
  right : Source
  node : Span → Span → Prop
  call : Span → Span → Prop
  loss : Degradation → Degradation → Prop
  sliced : ∀ {s t : Span}, node s t → (left.slice? s).isSome = (right.slice? t).isSome
  records : ∀ {l : Loss} {s t : Span} {a b : String}, call s t → left.slice? s = some a →
    right.slice? t = some b → loss ⟨l, a, s⟩ ⟨l, b, t⟩

/-- In a text compared with itself what corresponds is equal. -/
def Comparison.self (src : Source) : Comparison where
  left := src
  right := src
  node := Eq
  call := Eq
  loss := Eq
  sliced := by
    rintro s t rfl
    rfl
  records := by
    rintro l s t a b rfl ha hb
    rw [ha] at hb
    rw [Option.some.inj hb]

variable {c : Comparison}

/-! ## Names, types and expressions -/

structure Ident.Twin (c : Comparison) (x y : Ident) : Prop where
  name : x.name = y.name
  span : c.node x.span y.span

inductive TypeExpr.Twin (c : Comparison) : TypeExpr → TypeExpr → Prop
  | named {x y : Ident} (hx : x.Twin c y) : Twin c (.named x) (.named y)
  | unsupported {s t : Span} (hs : c.node s t) : Twin c (.unsupported s) (.unsupported t)

/-- Expressions that differ in nothing but their spans, which correspond. -/
inductive Expr.Twin (c : Comparison) : Expr → Expr → Prop
  | literal {text : String} {s t : Span} (hs : c.node s t) :
      Twin c (.literal text s) (.literal text t)
  | name {x y : Ident} (hx : x.Twin c y) : Twin c (.name x) (.name y)
  | binary {op : Operator} {l l' r r' : Expr} {s t : Span} (hs : c.node s t) (hl : Twin c l l')
      (hr : Twin c r r') : Twin c (.binary op l r s) (.binary op l' r' t)
  | unary {op : Operator} {e e' : Expr} {s t : Span} (hs : c.node s t) (he : Twin c e e') :
      Twin c (.unary op e s) (.unary op e' t)
  | paren {e e' : Expr} {s t : Span} (hs : c.node s t) (he : Twin c e e') :
      Twin c (.paren e s) (.paren e' t)
  | call {f f' : Expr} {args args' : List Expr} {s t : Span} (hs : c.node s t) (hc : c.call s t)
      (hf : Twin c f f') (ha : List.Forall₂ (Twin c) args args') :
      Twin c (.call f args s) (.call f' args' t)
  | selector {e e' : Expr} {x y : Ident} {s t : Span} (hs : c.node s t) (he : Twin c e e')
      (hx : x.Twin c y) : Twin c (.selector e x s) (.selector e' y t)
  | unsupported {s t : Span} (hs : c.node s t) : Twin c (.unsupported s) (.unsupported t)

/-! ## Statements -/

structure ValueSpec.Twin (c : Comparison) (spec spec' : ValueSpec) : Prop where
  names : List.Forall₂ (Ident.Twin c) spec.names spec'.names
  type : Option.Rel (TypeExpr.Twin c) spec.type spec'.type
  values : List.Forall₂ (Expr.Twin c) spec.values spec'.values
  span : c.node spec.span spec'.span

mutual

/-- Statements that differ in nothing but their spans, which correspond. -/
inductive Stmt.Twin (c : Comparison) : Stmt → Stmt → Prop
  | ret {es es' : List Expr} {s t : Span} (hs : c.node s t)
      (hr : List.Forall₂ (Expr.Twin c) es es') : Stmt.Twin c (.ret es s) (.ret es' t)
  | assign {lhs lhs' rhs rhs' : List Expr} {op : Operator} {s t : Span} (hs : c.node s t)
      (hl : List.Forall₂ (Expr.Twin c) lhs lhs') (hr : List.Forall₂ (Expr.Twin c) rhs rhs') :
      Stmt.Twin c (.assign lhs op rhs s) (.assign lhs' op rhs' t)
  | decl {kind : DeclKind} {specs specs' : List ValueSpec} {s t : Span} (hs : c.node s t)
      (hp : List.Forall₂ (ValueSpec.Twin c) specs specs') :
      Stmt.Twin c (.decl kind specs s) (.decl kind specs' t)
  | step {e e' : Expr} {op : Operator} {s t : Span} (hs : c.node s t) (he : e.Twin c e') :
      Stmt.Twin c (.step e op s) (.step e' op t)
  | cond {init init' other other' : Option Stmt} {test test' : Expr} {body body' : Block}
      {s t : Span} (hs : c.node s t) (hi : Option.Rel (Stmt.Twin c) init init')
      (ht : test.Twin c test') (hb : Block.Twin c body body')
      (ho : Option.Rel (Stmt.Twin c) other other') :
      Stmt.Twin c (.cond init test body other s) (.cond init' test' body' other' t)
  | loop {init init' post post' : Option Stmt} {test test' : Option Expr} {body body' : Block}
      {s t : Span} (hs : c.node s t) (hi : Option.Rel (Stmt.Twin c) init init')
      (ht : Option.Rel (Expr.Twin c) test test') (hp : Option.Rel (Stmt.Twin c) post post')
      (hb : Block.Twin c body body') :
      Stmt.Twin c (.loop init test post body s) (.loop init' test' post' body' t)
  | block {body body' : Block} (hb : Block.Twin c body body') :
      Stmt.Twin c (.block body) (.block body')
  | unsupported {s t : Span} (hs : c.node s t) : Stmt.Twin c (.unsupported s) (.unsupported t)

inductive Block.Twin (c : Comparison) : Block → Block → Prop
  | mk {ss ss' : List Stmt} {s t : Span} (hs : c.node s t)
      (hb : List.Forall₂ (Stmt.Twin c) ss ss') : Block.Twin c (.mk ss s) (.mk ss' t)

end

theorem Block.Twin.span {a b : Block} (h : a.Twin c b) : c.node a.span b.span := by
  cases h with
  | mk hs => exact hs

theorem Stmt.Twin.span {a b : Stmt} (h : a.Twin c b) : c.node a.span b.span := by
  cases h with
  | ret hs | assign hs | decl hs | step hs | cond hs | loop hs | unsupported hs => exact hs
  | block hb => exact hb.span

/-! ## Functions -/

structure Field.Twin (c : Comparison) (field field' : Field) : Prop where
  names : List.Forall₂ (Ident.Twin c) field.names field'.names
  type : field.type.Twin c field'.type
  span : c.node field.span field'.span

structure FieldList.Twin (c : Comparison) (fs fs' : FieldList) : Prop where
  fields : List.Forall₂ (Field.Twin c) fs.fields fs'.fields
  span : c.node fs.span fs'.span

structure Func.Twin (c : Comparison) (f g : Func) : Prop where
  name : f.name.name = g.name.name
  params : f.params.Twin c g.params
  results : Option.Rel (FieldList.Twin c) f.results g.results
  body : Option.Rel (Block.Twin c) f.body g.body

/-! ## Trees that are equal up to spans -/

open Recast.Span (Abreast)

/-- Options whose images are equal are both empty, or hold values with equal images. -/
theorem rel_of_map_eq {α β : Type} {R : α → α → Prop} {f : α → β} {a b : Option α}
    (h : a.map f = b.map f) (hR : ∀ x y, a = some x → b = some y → f x = f y → R x y) :
    Option.Rel R a b := by
  cases a with
  | none =>
    cases b with
    | none => exact .none
    | some y => cases h
  | some x =>
    cases b with
    | none => cases h
    | some y => exact .some (hR x y rfl rfl (Option.some.inj h))

theorem length_elim_eq {α β : Type} {f : α → β} {g : α → List Span} {a b : Option α}
    (h : a.map f = b.map f) (hg : ∀ x y, f x = f y → (g x).length = (g y).length) :
    (a.elim [] g).length = (b.elim [] g).length := by
  cases rel_of_map_eq (R := fun x y => f x = f y) h fun _ _ _ _ he => he with
  | none => rfl
  | some he => exact hg _ _ he

/-- Equal lists of names, spans left out. -/
theorem Ident.twins_of_unplaced : ∀ {xs ys : List Ident},
    xs.map Ident.unplaced = ys.map Ident.unplaced →
    Abreast c.node (xs.map Ident.span) (ys.map Ident.span) →
    List.Forall₂ (Ident.Twin c) xs ys
  | [], ys, h, hn => by
    cases ys with
    | nil => exact .nil
    | cons y ys => cases h
  | x :: xs, ys, h, hn => by
    cases ys with
    | nil => cases h
    | cons y ys =>
      rw [List.map_cons, List.map_cons] at h hn
      obtain ⟨hx, hxs⟩ := List.cons.inj h
      obtain ⟨hs, hn⟩ := Abreast.cons_iff.1 hn
      exact .cons ⟨(Ident.mk.inj hx).1, hs⟩ (twins_of_unplaced hxs hn)

theorem TypeExpr.twin_of_unplaced {a b : TypeExpr} (h : a.unplaced = b.unplaced)
    (hn : c.node a.span b.span) : a.Twin c b := by
  cases a with
  | named x =>
    cases b with
    | named y =>
      have hx : x.unplaced = y.unplaced := TypeExpr.named.inj h
      exact .named ⟨(Ident.mk.inj hx).1, hn⟩
    | unsupported t => cases h
  | unsupported s =>
    cases b with
    | named y => cases h
    | unsupported t => exact .unsupported hn

mutual

theorem Expr.twin_of_unplaced : ∀ {a b : Expr}, a.unplaced = b.unplaced →
    Abreast c.node a.spans b.spans → Abreast c.call a.calls b.calls → a.Twin c b
  | .literal text s, b, h, hn, hc => by
    cases b <;> cases h
    exact .literal (Abreast.cons_iff.1 hn).1
  | .name x, b, h, hn, hc => by
    cases b with
    | name y =>
      obtain ⟨hx, -⟩ := Ident.mk.inj (Expr.name.inj h)
      exact .name ⟨hx, (Abreast.cons_iff.1 hn).1⟩
    | _ => cases h
  | .binary op l r s, b, h, hn, hc => by
    cases b with
    | binary op' l' r' t =>
      obtain ⟨rfl, hl, hr, -⟩ := Expr.binary.inj h
      obtain ⟨hs, hn⟩ := Abreast.cons_iff.1 hn
      obtain ⟨hnl, hnr⟩ := (Abreast.append_iff (counts_eq hl).spans).1 hn
      obtain ⟨hcl, hcr⟩ := (Abreast.append_iff (counts_eq hl).calls).1 hc
      exact .binary hs (twin_of_unplaced hl hnl hcl) (twin_of_unplaced hr hnr hcr)
    | _ => cases h
  | .unary op e s, b, h, hn, hc => by
    cases b with
    | unary op' e' t =>
      obtain ⟨rfl, he, -⟩ := Expr.unary.inj h
      obtain ⟨hs, hn⟩ := Abreast.cons_iff.1 hn
      exact .unary hs (twin_of_unplaced he hn hc)
    | _ => cases h
  | .paren e s, b, h, hn, hc => by
    cases b with
    | paren e' t =>
      obtain ⟨he, -⟩ := Expr.paren.inj h
      obtain ⟨hs, hn⟩ := Abreast.cons_iff.1 hn
      exact .paren hs (twin_of_unplaced he hn hc)
    | _ => cases h
  | .call callee args s, b, h, hn, hc => by
    cases b with
    | call callee' args' t =>
      obtain ⟨hf, ha, -⟩ := Expr.call.inj h
      obtain ⟨hs, hn⟩ := Abreast.cons_iff.1 hn
      obtain ⟨hcs, hc⟩ := Abreast.cons_iff.1 hc
      obtain ⟨hnf, hna⟩ := (Abreast.append_iff (counts_eq hf).spans).1 hn
      obtain ⟨hcf, hca⟩ := (Abreast.append_iff (counts_eq hf).calls).1 hc
      exact .call hs hcs (twin_of_unplaced hf hnf hcf) (twins_of_unplaced ha hna hca)
    | _ => cases h
  | .selector e x s, b, h, hn, hc => by
    cases b with
    | selector e' y t =>
      obtain ⟨he, hx, -⟩ := Expr.selector.inj h
      obtain ⟨hs, hn⟩ := Abreast.cons_iff.1 hn
      obtain ⟨hxs, hn⟩ := Abreast.cons_iff.1 hn
      exact .selector hs (twin_of_unplaced he hn hc) ⟨(Ident.mk.inj hx).1, hxs⟩
    | _ => cases h
  | .unsupported s, b, h, hn, hc => by
    cases b <;> cases h
    exact .unsupported (Abreast.cons_iff.1 hn).1

theorem Expr.twins_of_unplaced : ∀ {as bs : List Expr}, unplacedList as = unplacedList bs →
    Abreast c.node (listSpans as) (listSpans bs) →
    Abreast c.call (listCalls as) (listCalls bs) → List.Forall₂ (Expr.Twin c) as bs
  | [], bs, h, hn, hc => by
    cases bs with
    | nil => exact .nil
    | cons b bs => cases h
  | a :: as, bs, h, hn, hc => by
    cases bs with
    | nil => cases h
    | cons b bs =>
      obtain ⟨he, hes⟩ := List.cons.inj h
      obtain ⟨hne, hnes⟩ := (Abreast.append_iff (counts_eq he).spans).1 hn
      obtain ⟨hce, hces⟩ := (Abreast.append_iff (counts_eq he).calls).1 hc
      exact .cons (twin_of_unplaced he hne hce) (twins_of_unplaced hes hnes hces)

end

theorem ValueSpec.twin_of_unplaced {a b : ValueSpec} (h : a.unplaced = b.unplaced)
    (hn : Abreast c.node a.spans b.spans)
    (hc : Abreast c.call (Expr.listCalls a.values) (Expr.listCalls b.values)) : a.Twin c b := by
  obtain ⟨hx, ht, hv, -⟩ := ValueSpec.mk.inj h
  rw [spans, spans, List.append_assoc, List.append_assoc] at hn
  obtain ⟨hs, hn⟩ := Abreast.cons_iff.1 hn
  have hlx : (a.names.map Ident.span).length = (b.names.map Ident.span).length := by
    simpa using congrArg List.length hx
  have hlt : (a.type.toList.map TypeExpr.span).length
      = (b.type.toList.map TypeExpr.span).length := by
    have hsome : a.type.isSome = b.type.isSome := by simpa using congrArg Option.isSome ht
    simp [Option.length_toList, hsome]
  obtain ⟨hnx, hn⟩ := (Abreast.append_iff hlx).1 hn
  obtain ⟨hnt, hnv⟩ := (Abreast.append_iff hlt).1 hn
  refine ⟨Ident.twins_of_unplaced hx hnx, ?_, Expr.twins_of_unplaced hv hnv hc, hs⟩
  apply rel_of_map_eq ht
  intro t u ha hb he
  rw [ha, hb] at hnt
  exact TypeExpr.twin_of_unplaced he (Abreast.cons_iff.1 hnt).1

theorem ValueSpec.twins_of_unplaced : ∀ {as bs : List ValueSpec},
    as.map ValueSpec.unplaced = bs.map ValueSpec.unplaced →
    Abreast c.node (as.flatMap ValueSpec.spans) (bs.flatMap ValueSpec.spans) →
    Abreast c.call (as.flatMap fun spec => Expr.listCalls spec.values)
      (bs.flatMap fun spec => Expr.listCalls spec.values) →
    List.Forall₂ (ValueSpec.Twin c) as bs
  | [], bs, h, hn, hc => by
    cases bs with
    | nil => exact .nil
    | cons b bs => cases h
  | a :: as, bs, h, hn, hc => by
    cases bs with
    | nil => cases h
    | cons b bs =>
      obtain ⟨he, hes⟩ := List.cons.inj h
      obtain ⟨hne, hnes⟩ := (Abreast.append_iff (counts_eq he).spans).1 hn
      obtain ⟨hce, hces⟩ := (Abreast.append_iff (counts_eq he).calls).1 hc
      exact .cons (twin_of_unplaced he hne hce) (twins_of_unplaced hes hnes hces)

theorem Expr.optionTwin_of_unplaced {a b : Option Expr}
    (h : a.map Expr.unplaced = b.map Expr.unplaced)
    (hn : Abreast c.node (a.elim [] Expr.spans) (b.elim [] Expr.spans))
    (hc : Abreast c.call (a.elim [] Expr.calls) (b.elim [] Expr.calls)) :
    Option.Rel (Expr.Twin c) a b := by
  apply rel_of_map_eq h
  intro x y ha hb he
  rw [ha, hb] at hn hc
  exact twin_of_unplaced he hn hc

mutual

theorem Stmt.twin_of_unplaced : ∀ {a b : Stmt}, a.unplaced = b.unplaced →
    Abreast c.node a.spans b.spans → Abreast c.call a.calls b.calls → a.Twin c b
  | .ret es s, b, h, hn, hc => by
    cases b with
    | ret es' t =>
      obtain ⟨hr, -⟩ := Stmt.ret.inj h
      obtain ⟨hs, hn⟩ := Abreast.cons_iff.1 hn
      exact .ret hs (Expr.twins_of_unplaced hr hn hc)
    | _ => cases h
  | .assign lhs op rhs s, b, h, hn, hc => by
    cases b with
    | assign lhs' op' rhs' t =>
      obtain ⟨hl, rfl, hr, -⟩ := Stmt.assign.inj h
      obtain ⟨hs, hn⟩ := Abreast.cons_iff.1 hn
      obtain ⟨hnl, hnr⟩ := (Abreast.append_iff (Expr.listCounts_eq hl).spans).1 hn
      obtain ⟨hcl, hcr⟩ := (Abreast.append_iff (Expr.listCounts_eq hl).calls).1 hc
      exact .assign hs (Expr.twins_of_unplaced hl hnl hcl) (Expr.twins_of_unplaced hr hnr hcr)
    | _ => cases h
  | .decl kind specs s, b, h, hn, hc => by
    cases b with
    | decl kind' specs' t =>
      obtain ⟨rfl, hp, -⟩ := Stmt.decl.inj h
      obtain ⟨hs, hn⟩ := Abreast.cons_iff.1 hn
      exact .decl hs (ValueSpec.twins_of_unplaced hp hn hc)
    | _ => cases h
  | .step e op s, b, h, hn, hc => by
    cases b with
    | step e' op' t =>
      obtain ⟨he, rfl, -⟩ := Stmt.step.inj h
      obtain ⟨hs, hn⟩ := Abreast.cons_iff.1 hn
      exact .step hs (Expr.twin_of_unplaced he hn hc)
    | _ => cases h
  | .cond init test body other s, b, h, hn, hc => by
    cases b with
    | cond init' test' body' other' t =>
      obtain ⟨hi, ht, hb, ho, -⟩ := Stmt.cond.inj h
      simp only [Stmt.spans, Stmt.calls, List.append_assoc] at hn hc
      obtain ⟨hs, hn⟩ := Abreast.cons_iff.1 hn
      obtain ⟨hni, hn⟩ := (Abreast.append_iff (Stmt.optionCounts_eq hi).spans).1 hn
      obtain ⟨hci, hc⟩ := (Abreast.append_iff (Stmt.optionCounts_eq hi).calls).1 hc
      obtain ⟨hnt, hn⟩ := (Abreast.append_iff (Expr.counts_eq ht).spans).1 hn
      obtain ⟨hct, hc⟩ := (Abreast.append_iff (Expr.counts_eq ht).calls).1 hc
      obtain ⟨hnb, hno⟩ := (Abreast.append_iff (Block.counts_eq hb).spans).1 hn
      obtain ⟨hcb, hco⟩ := (Abreast.append_iff (Block.counts_eq hb).calls).1 hc
      exact .cond hs (Stmt.optionTwin_of_unplaced hi hni hci) (Expr.twin_of_unplaced ht hnt hct)
        (Block.twin_of_unplaced hb hnb hcb) (Stmt.optionTwin_of_unplaced ho hno hco)
    | _ => cases h
  | .loop init test post body s, b, h, hn, hc => by
    cases b with
    | loop init' test' post' body' t =>
      obtain ⟨hi, ht, hp, hb, -⟩ := Stmt.loop.inj h
      simp only [Stmt.spans, Stmt.calls, List.append_assoc] at hn hc
      obtain ⟨hs, hn⟩ := Abreast.cons_iff.1 hn
      obtain ⟨hni, hn⟩ := (Abreast.append_iff (Stmt.optionCounts_eq hi).spans).1 hn
      obtain ⟨hci, hc⟩ := (Abreast.append_iff (Stmt.optionCounts_eq hi).calls).1 hc
      have hlt := length_elim_eq ht fun _ _ h => (Expr.counts_eq h).spans
      have klt := length_elim_eq ht fun _ _ h => (Expr.counts_eq h).calls
      obtain ⟨hnt, hn⟩ := (Abreast.append_iff hlt).1 hn
      obtain ⟨hct, hc⟩ := (Abreast.append_iff klt).1 hc
      obtain ⟨hnp, hnb⟩ := (Abreast.append_iff (Stmt.optionCounts_eq hp).spans).1 hn
      obtain ⟨hcp, hcb⟩ := (Abreast.append_iff (Stmt.optionCounts_eq hp).calls).1 hc
      exact .loop hs (Stmt.optionTwin_of_unplaced hi hni hci)
        (Expr.optionTwin_of_unplaced ht hnt hct) (Stmt.optionTwin_of_unplaced hp hnp hcp)
        (Block.twin_of_unplaced hb hnb hcb)
    | _ => cases h
  | .block body, b, h, hn, hc => by
    cases b with
    | block body' => exact .block (Block.twin_of_unplaced (Stmt.block.inj h) hn hc)
    | _ => cases h
  | .unsupported s, b, h, hn, hc => by
    cases b <;> cases h
    exact .unsupported (Abreast.cons_iff.1 hn).1

theorem Stmt.optionTwin_of_unplaced : ∀ {a b : Option Stmt},
    Stmt.unplacedOption a = Stmt.unplacedOption b →
    Abreast c.node (Stmt.optionSpans a) (Stmt.optionSpans b) →
    Abreast c.call (Stmt.optionCalls a) (Stmt.optionCalls b) → Option.Rel (Stmt.Twin c) a b
  | none, b, h, hn, hc => by
    cases b with
    | none => exact .none
    | some b => cases h
  | some a, b, h, hn, hc => by
    cases b with
    | none => cases h
    | some b => exact .some (Stmt.twin_of_unplaced (Option.some.inj h) hn hc)

theorem Stmt.twins_of_unplaced : ∀ {as bs : List Stmt},
    Stmt.unplacedList as = Stmt.unplacedList bs →
    Abreast c.node (Stmt.listSpans as) (Stmt.listSpans bs) →
    Abreast c.call (Stmt.listCalls as) (Stmt.listCalls bs) → List.Forall₂ (Stmt.Twin c) as bs
  | [], bs, h, hn, hc => by
    cases bs with
    | nil => exact .nil
    | cons b bs => cases h
  | a :: as, bs, h, hn, hc => by
    cases bs with
    | nil => cases h
    | cons b bs =>
      obtain ⟨hs, hss⟩ := List.cons.inj h
      obtain ⟨hns, hnss⟩ := (Abreast.append_iff (Stmt.counts_eq hs).spans).1 hn
      obtain ⟨hcs, hcss⟩ := (Abreast.append_iff (Stmt.counts_eq hs).calls).1 hc
      exact .cons (Stmt.twin_of_unplaced hs hns hcs) (Stmt.twins_of_unplaced hss hnss hcss)

theorem Block.twin_of_unplaced : ∀ {a b : Block}, a.unplaced = b.unplaced →
    Abreast c.node a.spans b.spans → Abreast c.call a.calls b.calls → a.Twin c b
  | .mk ss s, .mk ts t, h, hn, hc => by
    obtain ⟨hss, -⟩ := Block.mk.inj h
    obtain ⟨hs, hn⟩ := Abreast.cons_iff.1 hn
    exact .mk hs (Stmt.twins_of_unplaced hss hn hc)

end

theorem Field.twin_of_unplaced {a b : Field} (h : a.unplaced = b.unplaced)
    (hn : Abreast c.node a.spans b.spans) : a.Twin c b := by
  obtain ⟨hx, ht, -⟩ := Field.mk.inj h
  obtain ⟨hs, hn⟩ := Abreast.cons_iff.1 hn
  obtain ⟨hts, hn⟩ := Abreast.cons_iff.1 hn
  exact ⟨Ident.twins_of_unplaced hx hn, TypeExpr.twin_of_unplaced ht hts, hs⟩

theorem Field.twins_of_unplaced : ∀ {as bs : List Field},
    as.map Field.unplaced = bs.map Field.unplaced →
    Abreast c.node (as.flatMap Field.spans) (bs.flatMap Field.spans) →
    List.Forall₂ (Field.Twin c) as bs
  | [], bs, h, hn => by
    cases bs with
    | nil => exact .nil
    | cons b bs => cases h
  | a :: as, bs, h, hn => by
    cases bs with
    | nil => cases h
    | cons b bs =>
      obtain ⟨hf, hfs⟩ := List.cons.inj h
      obtain ⟨hnf, hnfs⟩ := (Abreast.append_iff (length_spans_eq hf)).1 hn
      exact .cons (twin_of_unplaced hf hnf) (twins_of_unplaced hfs hnfs)

theorem FieldList.twin_of_unplaced {a b : FieldList} (h : a.unplaced = b.unplaced)
    (hn : Abreast c.node a.spans b.spans) : a.Twin c b := by
  obtain ⟨hs, hn⟩ := Abreast.cons_iff.1 hn
  exact ⟨Field.twins_of_unplaced (FieldList.mk.inj h).1 hn, hs⟩

/-- Functions that are equal up to spans are twins, spans in the same places corresponding. -/
theorem Func.twin_of_unplaced {f g : Func} (h : f.unplaced = g.unplaced)
    (hn : Abreast c.node f.spans g.spans) (hc : Abreast c.call f.calls g.calls) :
    f.Twin c g := by
  obtain ⟨hx, hp, hr, hb, -⟩ := Func.mk.inj h
  rw [spans, spans, List.append_assoc, List.append_assoc] at hn
  obtain ⟨-, hn⟩ := Abreast.cons_iff.1 hn
  obtain ⟨-, hn⟩ := Abreast.cons_iff.1 hn
  obtain ⟨hnp, hn⟩ := (Abreast.append_iff (FieldList.length_spans_eq hp)).1 hn
  obtain ⟨hnr, hnb⟩ :=
    (Abreast.append_iff (length_elim_eq hr fun _ _ => FieldList.length_spans_eq)).1 hn
  refine ⟨(Ident.mk.inj hx).1, FieldList.twin_of_unplaced hp hnp, ?_, ?_⟩
  · apply rel_of_map_eq hr
    intro a b hf hg he
    rw [hf, hg] at hnr
    exact FieldList.twin_of_unplaced he hnr
  · apply rel_of_map_eq hb
    intro a b hf hg he
    rw [calls, calls, hf, hg] at hc
    rw [hf, hg] at hnb
    exact Block.twin_of_unplaced he hnb hc

/-- A block is its own twin. -/
theorem Block.twin_self (src : Source) (b : Block) : b.Twin (.self src) b :=
  twin_of_unplaced rfl (.self (fun _ => rfl) b.spans) (.self (fun _ => rfl) b.calls)

end Recast
