import Recast.Proofs.Trace
import Recast.Proofs.Pieces

/-!
# Chained levels against isolated ones

Two runs of the same tree, the second of which sees more. The names declared at a level of the
second run are among those of the first, and all that the first sees can be seen from the second
(`Beside`). So the second run never fails before the first, the first run fails alone only over a
name that it declared again (`Agree`), and where both succeed their texts differ only in pairs of
`:=` that the second run turns into assignments. A run under the isolated policy and one under the
chained policy are such runs (`chained_refines_isolated`).
-/

namespace Recast

open Target (Fragment)

/-! ## Reused names -/

/-- A name was declared at a level around the current one that can be seen. -/
def Scope.isDeclaredAround (s : Scope) (name : String) : Bool := s.outer.any (·.contains name)

theorem Scope.isDeclared_eq_around {s : Scope} {n : String} (h : s.isDeclaredHere n = false) :
    s.isDeclared n = s.isDeclaredAround n := by
  rw [Scope.isDeclared, h, Bool.false_or, Scope.isDeclaredAround]

/-- A fragment comes from a pair of `:=` with a name that is not blank. -/
def Target.Fragment.isPair : Fragment → Bool
  | .bind .. | .rebind .. => true
  | _ => false

/-- A fragment of the first text and the one in its place in the second, with the pair of `:=` that
both are made from, at its point of the second run. The `auto` of a declaration goes
exactly if the name was declared around the level. -/
inductive Reuse : List (String × Scope) → Fragment → Fragment → Prop
  | same {f : Fragment} (hf : f.isPair = false) : Reuse [] f f
  | rebind {n : String} {s : Scope} {v : Target.Expr} :
      Reuse [(n, s)] (.rebind n v) (.rebind n v)
  | reuse {n : String} {s : Scope} {v : Target.Expr} (hn : s.isDeclaredAround n = true) :
      Reuse [(n, s)] (.bind n v) (.rebind n v)
  | bind {n : String} {s : Scope} {v : Target.Expr} (hn : s.isDeclaredAround n = false) :
      Reuse [(n, s)] (.bind n v) (.bind n v)

/-- The same for fragments in order, each with its own pair. -/
inductive ReuseList : List (String × Scope) → List Fragment → List Fragment → Prop
  | nil : ReuseList [] [] []
  | cons {ps qs : List (String × Scope)} {f g : Fragment} {fs gs : List Fragment}
      (h : Reuse ps f g) (hr : ReuseList qs fs gs) : ReuseList (ps ++ qs) (f :: fs) (g :: gs)

/-- The same for texts in pieces: outside the fragments they are equal. -/
inductive ReusePieces : List (String × Scope) → List Target.Piece → List Target.Piece → Prop
  | nil : ReusePieces [] [] []
  | glue {ps : List (String × Scope)} {t : String} {as bs : List Target.Piece}
      (hr : ReusePieces ps as bs) : ReusePieces ps (.glue t :: as) (.glue t :: bs)
  | expr {ps : List (String × Scope)} {x : Target.Expr} {as bs : List Target.Piece}
      (hr : ReusePieces ps as bs) : ReusePieces ps (.expr x :: as) (.expr x :: bs)
  | fragment {ps qs : List (String × Scope)} {f g : Fragment} {as bs : List Target.Piece}
      (h : Reuse ps f g) (hr : ReusePieces qs as bs) :
      ReusePieces (ps ++ qs) (.fragment f :: as) (.fragment g :: bs)

theorem ReuseList.append {ps qs : List (String × Scope)} {fs gs hs is : List Fragment}
    (h : ReuseList ps fs gs) (k : ReuseList qs hs is) :
    ReuseList (ps ++ qs) (fs ++ hs) (gs ++ is) := by
  induction h with
  | nil => exact k
  | cons h _ ih =>
    rw [List.append_assoc]
    exact .cons h ih

namespace ReusePieces

variable {ps qs : List (String × Scope)} {as bs cs ds : List Target.Piece}

theorem append (h : ReusePieces ps as bs) (k : ReusePieces qs cs ds) :
    ReusePieces (ps ++ qs) (as ++ cs) (bs ++ ds) := by
  induction h with
  | nil => exact k
  | glue _ ih => exact .glue ih
  | expr _ ih => exact .expr ih
  | fragment h _ ih =>
    rw [List.append_assoc]
    exact .fragment h ih

/-- Pieces without a pair after others. -/
theorem append_glue (h : ReusePieces ps as bs) (t : String) :
    ReusePieces ps (as ++ [.glue t]) (bs ++ [.glue t]) := by
  have := h.append (.glue .nil : ReusePieces [] [.glue t] [.glue t])
  rwa [List.append_nil] at this

theorem lines {fs gs : List Fragment} (h : ReuseList ps fs gs) :
    ReusePieces ps (Target.Piece.lines fs) (Target.Piece.lines gs) := by
  induction h with
  | nil => exact .nil
  | cons h _ ih => exact .fragment h (.glue ih)

theorem clause {fs gs : List Fragment} (h : ReuseList ps fs gs) :
    ReusePieces ps (Target.Piece.clause fs) (Target.Piece.clause gs) := by
  induction h with
  | nil => exact .nil
  | cons h hr ih =>
    cases hr with
    | nil => exact .fragment h .nil
    | cons _ _ => exact .fragment h (.glue ih)

theorem padded {fs gs : List Fragment} (h : ReuseList ps fs gs) :
    ReusePieces ps (Target.Piece.padded fs) (Target.Piece.padded gs) := by
  have hc := clause h
  cases h with
  | nil => exact .nil
  | cons _ _ => exact .glue hc

theorem braced (h : ReusePieces ps as bs) :
    ReusePieces ps (Target.Piece.braced as) (Target.Piece.braced bs) :=
  .glue (h.append_glue _)

theorem enclosed {fs gs : List Fragment} (h : ReuseList ps fs gs) (k : ReusePieces qs as bs) :
    ReusePieces (ps ++ qs) (Target.Piece.enclosed fs as) (Target.Piece.enclosed gs bs) :=
  .glue (((lines h).append k).append_glue _)

theorem conditional (test : Target.Expr) (h : ReusePieces ps as bs) (k : ReusePieces qs cs ds) :
    ReusePieces (ps ++ qs) (Target.Piece.conditional test as cs)
      (Target.Piece.conditional test bs ds) := by
  have hb := h.braced.append k
  exact .glue (.expr (.glue hb))

theorem test (o : Option Target.Expr) (h : ReusePieces ps as bs) :
    ReusePieces ps (Target.Piece.test o ++ as) (Target.Piece.test o ++ bs) := by
  cases o with
  | none => exact h
  | some x =>
    rw [Target.Piece.test]
    split
    · exact .expr h
    · exact .glue (.expr h)

theorem loop {rs : List (String × Scope)} (test : Option Target.Expr) {fs gs : List Fragment}
    (h : ReusePieces ps as bs) (k : ReuseList qs fs gs) (l : ReusePieces rs cs ds) :
    ReusePieces (ps ++ (qs ++ rs)) (Target.Piece.loop as test fs cs)
      (Target.Piece.loop bs test gs ds) := by
  have hb : ReusePieces rs (.glue ") " :: Target.Piece.braced cs)
      (.glue ") " :: Target.Piece.braced ds) := .glue l.braced
  have hp := (padded k).append hb
  exact .glue (h.append (.glue (.test test (.glue hp))))

end ReusePieces

/-! ## Two runs side by side -/

/-- The progress of two runs that correspond: the level of the second declares no more names than
that of the first, and sees all that this sees, so it sees the levels around it if this does. -/
structure Beside (p q : Progress) : Prop where
  around : p.scope.policy = .chained → q.scope.policy = .chained
  lost : q.lost = p.lost
  here : ∀ n, q.scope.isDeclaredHere n = true → p.scope.isDeclaredHere n = true
  seen : ∀ n, p.scope.isDeclared n = true → q.scope.isDeclared n = true

/-- The fault is that a name is declared again. -/
def Fault.isDuplicate : Fault → Bool
  | .rejected ⟨.duplicateDeclaration _, _⟩ => true
  | _ => false

/-- The outcomes of two such runs: both succeed with results in a relation, or both fail alike, or
the first run alone fails, over a name that is declared again. -/
inductive Agree {α : Type} (A : α → α → Prop) :
    Except Fault α × Progress → Except Fault α × Progress → Prop
  | ok {a b : α} {p q : Progress} (ha : A a b) (h : Beside p q) : Agree A (.ok a, p) (.ok b, q)
  | error {e : Fault} {p q : Progress} : Agree A (.error e, p) (.error e, q)
  | duplicate {e : Fault} {p : Progress} {r : Except Fault α × Progress}
      (he : e.isDuplicate = true) : Agree A (.error e, p) r

namespace Beside

variable {p q : Progress}

theorem root : Beside ⟨.root .isolated, []⟩ ⟨.root .chained, []⟩ :=
  ⟨fun _ => rfl, rfl, fun _ h => h, fun _ h => by cases h⟩

theorem record (h : Beside p q) (ds : List Degradation) :
    Beside { p with lost := p.lost ++ ds } { q with lost := q.lost ++ ds } :=
  ⟨h.around, by rw [h.lost], h.here, h.seen⟩

theorem not_here (h : Beside p q) {n : String} (hn : p.scope.isDeclaredHere n = false) :
    q.scope.isDeclaredHere n = false := by
  rw [← Bool.not_eq_true] at hn ⊢
  exact mt (h.here n) hn

theorem inner (h : Beside p q) : Beside p.inner q.inner := by
  refine ⟨?_, h.lost, ?_, ?_⟩
  · rw [Progress.inner_scope, Progress.inner_scope, Scope.child_policy, Scope.child_policy]
    exact h.around
  · intro n hn
    simp [Scope.isDeclaredHere] at hn
  · intro n hn
    rw [Progress.inner_scope, Scope.isDeclared_child] at hn ⊢
    exact ⟨h.around hn.1, h.seen n hn.2⟩

/-- Back at the level that was left. -/
theorem back (h : Beside p q) {r s : Progress} (k : Beside r s) :
    Beside { r with scope := p.scope } { s with scope := q.scope } :=
  ⟨h.around, k.lost, h.here, h.seen⟩

theorem declaring_isDeclaredHere {n m : String} :
    (p.declaring n).scope.isDeclaredHere m = true ↔ m = n ∨ p.scope.isDeclaredHere m = true := by
  simp [Progress.declaring, Scope.isDeclaredHere]

theorem declaring_isDeclared {n m : String} :
    (p.declaring n).scope.isDeclared m = true ↔ m = n ∨ p.scope.isDeclared m = true := by
  unfold Scope.isDeclared
  rw [Bool.or_eq_true, declaring_isDeclaredHere, Bool.or_eq_true, or_assoc]
  rfl

/-- Both runs declare a name. -/
theorem declaring (h : Beside p q) (n : String) : Beside (p.declaring n) (q.declaring n) := by
  refine ⟨h.around, h.lost, ?_, ?_⟩
  · intro m hm
    rw [declaring_isDeclaredHere] at hm ⊢
    exact hm.imp_right (h.here m)
  · intro m hm
    rw [declaring_isDeclared] at hm ⊢
    exact hm.imp_right (h.seen m)

/-- The first run declares a name that the second one sees already. -/
theorem declaring_left (h : Beside p q) {n : String} (hn : q.scope.isDeclared n = true) :
    Beside (p.declaring n) q := by
  refine ⟨h.around, h.lost, ?_, ?_⟩
  · intro m hm
    rw [declaring_isDeclaredHere]
    exact .inr (h.here m hm)
  · intro m hm
    rw [declaring_isDeclared] at hm
    rcases hm with rfl | hm
    · exact hn
    · exact h.seen m hm

end Beside

namespace Agree

variable {α β : Type} {A : α → α → Prop} {B : β → β → Prop} {p q : Progress}

theorem mono {A' : α → α → Prop} {r s : Except Fault α × Progress} (h : Agree A r s)
    (hA : ∀ a b, A a b → A' a b) : Agree A' r s := by
  cases h with
  | ok ha h => exact .ok (hA _ _ ha) h
  | error => exact .error
  | duplicate he => exact .duplicate he

/-- Runs that agree go on to agree, if what follows does from every two results in the relation. -/
theorem bind {x y : Lowering α} {f g : α → Lowering β}
    (h : Agree A (x.runFrom p) (y.runFrom q))
    (k : ∀ a b r s, x.runFrom p = (.ok a, r) → y.runFrom q = (.ok b, s) → A a b → Beside r s →
      Agree B ((f a).runFrom r) ((g b).runFrom s)) :
    Agree B ((x >>= f).runFrom p) ((y >>= g).runFrom q) := by
  rw [Lowering.bind_runFrom, Lowering.bind_runFrom]
  generalize hx : x.runFrom p = rx at h
  generalize hy : y.runFrom q = ry at h
  cases h with
  | ok ha h => exact k _ _ _ _ hx hy ha h
  | error => exact .error
  | duplicate he => exact .duplicate he

theorem pure {a b : α} (ha : A a b) (h : Beside p q) :
    Agree A ((Pure.pure a : Lowering α).runFrom p) ((Pure.pure b : Lowering α).runFrom q) :=
  .ok ha h

theorem map {x y : Lowering α} {f : α → β} (h : Agree A (x.runFrom p) (y.runFrom q))
    (k : ∀ a b, A a b → B (f a) (f b)) :
    Agree B ((f <$> x).runFrom p) ((f <$> y).runFrom q) := by
  rw [map_eq_pure_bind, map_eq_pure_bind]
  exact h.bind fun a b r s _ _ hab hrs => .pure (k a b hab) hrs

theorem lift (r : Except Fault α) (h : Beside p q) :
    Agree Eq ((Lowering.lift r).runFrom p) ((Lowering.lift r).runFrom q) := by
  cases r with
  | ok a => exact .ok rfl h
  | error e => exact .error

theorem reject {src : Source} {cause : String → Cause} {span : Span} :
    Agree A ((Lowering.reject src cause span).runFrom p)
      ((Lowering.reject src cause span).runFrom q) :=
  .error

theorem expr (src : Source) (e : Expr) (h : Beside p q) :
    Agree Eq ((Lowering.expr src e).runFrom p) ((Lowering.expr src e).runFrom q) := by
  rw [Lowering.expr_runFrom, Lowering.expr_runFrom]
  cases (e.lower src).result with
  | ok r => exact .ok rfl (h.record (e.lower src).lost)
  | error e => exact .error

theorem optionExpr (src : Source) (e : Option Expr) (h : Beside p q) :
    Agree Eq ((e.mapM (Lowering.expr src)).runFrom p) ((e.mapM (Lowering.expr src)).runFrom q) := by
  cases e with
  | none => exact .pure rfl h
  | some e => exact (expr src e h).map fun a b hab => congrArg some hab

theorem inChild {x y : Lowering α} (h : Beside p q)
    (k : Agree A (x.runFrom p.inner) (y.runFrom q.inner)) :
    Agree A ((Lowering.inChild x).runFrom p) ((Lowering.inChild y).runFrom q) := by
  change Agree A ((x.runFrom p.inner).1, { (x.runFrom p.inner).2 with scope := p.scope })
    ((y.runFrom q.inner).1, { (y.runFrom q.inner).2 with scope := q.scope })
  generalize x.runFrom p.inner = rx at k
  generalize y.runFrom q.inner = ry at k
  cases k with
  | ok ha k => exact .ok ha (h.back k)
  | error => exact .error
  | duplicate he => exact .duplicate he

/-- What the first level has not declared, neither has the second one. -/
theorem declare {x : Ident} (hb : x.isBlank = false) (h : Beside p q) :
    Agree (fun _ _ => p.scope.isDeclaredHere x.name = false)
      ((Lowering.declare x).runFrom p) ((Lowering.declare x).runFrom q) := by
  cases hd : p.scope.isDeclaredHere x.name with
  | false =>
    have hp := (Lowering.declare_ok_of_not_blank (u := ()) hb).2 ⟨hd, rfl⟩
    have hq := (Lowering.declare_ok_of_not_blank (u := ()) hb).2 ⟨h.not_here hd, rfl⟩
    rw [hp, hq]
    exact .ok rfl (h.declaring _)
  | true =>
    rw [Lowering.declare_runFrom, Scope.declare?_eq_none_iff.2 ⟨hb, hd⟩]
    exact .duplicate rfl

theorem scope (h : Beside p q) :
    Agree (fun a b => a = p.scope ∧ b = q.scope) (Lowering.scope.runFrom p)
      (Lowering.scope.runFrom q) :=
  .ok ⟨rfl, rfl⟩ h

end Agree

/-! ## Simple statements -/

section Simple

variable {src : Source} {p q : Progress}

theorem lowerPair_agree (op : Operator) (lhs rhs : Expr) (h : Beside p q) :
    Agree (Reuse []) ((lowerPair src op lhs rhs).runFrom p)
      ((lowerPair src op lhs rhs).runFrom q) := by
  unfold lowerPair
  refine (Agree.expr src rhs h).bind ?_
  intro value _ r s _ _ e hrs
  subst e
  split
  · exact .pure (.same rfl) hrs
  · refine (Agree.expr src lhs hrs).bind ?_
    intro target _ r s _ _ e hrs
    subst e
    exact .pure (.same rfl) hrs

theorem lowerAssign_agree (op : Operator) (pairs : List (Expr × Expr)) (h : Beside p q) :
    Agree (ReuseList []) ((lowerAssign src op pairs).runFrom p)
      ((lowerAssign src op pairs).runFrom q) := by
  induction pairs generalizing p q with
  | nil => exact .pure .nil h
  | cons pair pairs ih =>
    refine (lowerPair_agree op pair.1 pair.2 h).bind ?_
    intro f g r s _ _ hf hrs
    refine (ih hrs).bind ?_
    intro fs gs r s _ _ hfs hrs
    exact .pure (.cons hf hfs) hrs

theorem lowerBinding_agree (x : Ident) (rhs : Expr) (h : Beside p q) :
    Agree (Reuse (if x.isBlank then [] else [(x.name, q.scope)]))
      ((lowerBinding src x rhs).runFrom p) ((lowerBinding src x rhs).runFrom q) := by
  unfold lowerBinding
  refine (Agree.expr src rhs h).bind ?_
  intro value _ r s _ hs e hrs
  subst e
  rw [← Lowering.expr_scope hs]
  cases hb : x.isBlank with
  | true => exact .pure (.same rfl) hrs
  | false =>
    refine (Agree.scope hrs).bind ?_
    intro _ _ r' s' hr' hs' h _
    obtain ⟨rfl, rfl⟩ := h
    obtain ⟨-, rfl⟩ := Lowering.scope_ok.1 hr'
    obtain ⟨-, rfl⟩ := Lowering.scope_ok.1 hs'
    cases hd : r'.scope.isDeclared x.name with
    | true =>
      rw [if_pos (hrs.seen _ hd)]
      exact .pure .rebind hrs
    | false =>
      have hp : r'.scope.isDeclaredHere x.name = false := (Bool.or_eq_false_iff.1 hd).1
      rw [Scope.isDeclared_eq_around (hrs.not_here hp)]
      -- The first run declares the name; the second one may find it further out.
      cases ha : s'.scope.isDeclaredAround x.name with
      | true =>
        have hbind :
            (Lowering.declare x >>= fun _ => pure (Fragment.bind x.name value)).runFrom r' =
            (.ok (Fragment.bind x.name value), r'.declaring x.name) :=
          Lowering.bind_ok.2 ⟨(), _, (Lowering.declare_ok_of_not_blank hb).2 ⟨hp, rfl⟩, rfl⟩
        simp only [Bool.false_eq_true, reduceIte]
        rw [hbind]
        refine .ok (.reuse ha) (hrs.declaring_left ?_)
        rw [Scope.isDeclared_eq_around (hrs.not_here hp), ha]
      | false =>
        simp only [Bool.false_eq_true, reduceIte]
        refine (Agree.declare hb hrs).bind ?_
        intro _ _ r s _ _ _ hrs
        exact .pure (.bind ha) hrs

theorem lowerBindings_agree (pairs : List (Ident × Expr)) (h : Beside p q) :
    Agree (ReuseList (Event.pairs (bindingTrace src pairs q)))
      ((lowerBindings src pairs).runFrom p) ((lowerBindings src pairs).runFrom q) := by
  induction pairs generalizing p q with
  | nil => exact .pure .nil h
  | cons pair pairs ih =>
    refine (lowerBinding_agree pair.1 pair.2 h).bind ?_
    intro f g r s _ hs hf hrs
    refine (ih hrs).bind ?_
    intro fs gs r' s' _ _ hfs hrs'
    have ht : Event.pairs (bindingTrace src (pair :: pairs) q) =
        (if pair.1.isBlank then [] else [(pair.1.name, q.scope)]) ++
          Event.pairs (bindingTrace src pairs s) := by
      rw [bindingTrace, Event.pairs_append, Lowering.after_of_ok hs]
      split <;> rfl
    rw [ht]
    exact .pure (.cons hf hfs) hrs'

/-- The second level declares no more than the first, so what is new there is new here. -/
theorem repeatedName?_agree {names : List Ident} (h : Beside p q)
    (hn : repeatedName? p.scope names = none) : repeatedName? q.scope names = none := by
  rw [repeatedName?_eq_none_iff] at hn ⊢
  refine hn.imp_right ?_
  intro h
  obtain ⟨x, hx, hb, hd⟩ := h
  exact ⟨x, hx, hb, h.not_here hd⟩

theorem lowerDefine_agree (lhs rhs : List Expr) (span : Span) (h : Beside p q) :
    Agree (ReuseList (Event.pairs (Stmt.simpleTrace src q (.assign lhs .define rhs span))))
      ((lowerDefine src lhs rhs span).runFrom p) ((lowerDefine src lhs rhs span).runFrom q) := by
  unfold lowerDefine
  rw [Stmt.simpleTrace]
  cases lhs.mapM Expr.name? with
  | none => exact .reject
  | some names =>
    refine (Agree.scope h).bind ?_
    intro _ _ r s hr hs h _
    obtain ⟨rfl, rfl⟩ := h
    obtain ⟨-, rfl⟩ := Lowering.scope_ok.1 hr
    obtain ⟨-, rfl⟩ := Lowering.scope_ok.1 hs
    cases hn : repeatedName? r.scope names with
    | some x => exact .duplicate rfl
    | none =>
      rw [repeatedName?_agree h hn]
      exact lowerBindings_agree _ h

theorem lowerName_agree (kind : DeclKind) (type : Option Primitive) (x : Ident)
    (v : Option Expr) (h : Beside p q) :
    Agree (ReuseList []) ((lowerName src kind type x v).runFrom p)
      ((lowerName src kind type x v).runFrom q) := by
  unfold lowerName
  cases hb : x.isBlank with
  | true =>
    cases v with
    | none => exact .pure .nil h
    | some v =>
      refine (Agree.expr src v h).bind ?_
      intro value _ r s _ _ e hrs
      subst e
      exact .pure (.cons (.same rfl) .nil) hrs
  | false =>
    refine (Agree.declare hb h).bind ?_
    intro _ _ r s _ _ _ hrs
    refine (Agree.optionExpr src v hrs).bind ?_
    intro value _ r s _ _ e hrs
    subst e
    exact .pure (.cons (.same rfl) .nil) hrs

theorem lowerNames_agree (kind : DeclKind) (type : Option Primitive) (names : List Ident)
    (values : List Expr) (h : Beside p q) :
    Agree (ReuseList []) ((lowerNames src kind type names values).runFrom p)
      ((lowerNames src kind type names values).runFrom q) := by
  induction names generalizing p q values with
  | nil => exact .pure .nil h
  | cons x names ih =>
    refine (lowerName_agree kind type x values.head? h).bind ?_
    intro fs gs r s _ _ hfs hrs
    refine (ih values.tail hrs).bind ?_
    intro fs' gs' r s _ _ hfs' hrs
    exact .pure (hfs.append hfs') hrs

theorem ValueSpec.lower_agree (kind : DeclKind) (spec : ValueSpec) (h : Beside p q) :
    Agree (ReuseList []) ((spec.lower src kind).runFrom p) ((spec.lower src kind).runFrom q) := by
  have ht : Agree Eq ((spec.type.mapM fun t => Lowering.lift (t.lower src)).runFrom p)
      ((spec.type.mapM fun t => Lowering.lift (t.lower src)).runFrom q) := by
    cases spec.type with
    | none => exact .pure rfl h
    | some t => exact (Agree.lift _ h).map fun a b hab => congrArg some hab
  unfold ValueSpec.lower
  refine ht.bind ?_
  intro type _ r s _ _ e hrs
  subst e
  split
  · exact .reject
  · exact lowerNames_agree kind type spec.names spec.values hrs

theorem lowerSpecs_agree (kind : DeclKind) (specs : List ValueSpec) (h : Beside p q) :
    Agree (ReuseList []) ((lowerSpecs src kind specs).runFrom p)
      ((lowerSpecs src kind specs).runFrom q) := by
  induction specs generalizing p q with
  | nil => exact .pure .nil h
  | cons spec specs ih =>
    refine (spec.lower_agree kind h).bind ?_
    intro fs gs r s _ _ hfs hrs
    refine (ih hrs).bind ?_
    intro fs' gs' r s _ _ hfs' hrs
    exact .pure (hfs.append hfs') hrs

theorem Stmt.lowerSimple_agree (s : Stmt) (h : Beside p q) :
    Agree (ReuseList (Event.pairs (s.simpleTrace src q))) ((s.lowerSimple src).runFrom p)
      ((s.lowerSimple src).runFrom q) := by
  cases s with
  | assign lhs op rhs span =>
    rw [Stmt.lowerSimple]
    split
    · exact .reject
    · split
      · rename_i hd
        subst hd
        exact lowerDefine_agree lhs rhs span h
      · rename_i hd
        have ht : Stmt.simpleTrace src q (.assign lhs op rhs span) = [] := by
          unfold Stmt.simpleTrace
          split
          · rename_i he
            cases he
            exact absurd rfl hd
          · rfl
        rw [ht]
        exact lowerAssign_agree op _ h
  | decl kind specs span => exact lowerSpecs_agree kind specs h
  | step operand op span =>
    rw [Stmt.lowerSimple]
    refine (Agree.expr src operand h).bind ?_
    intro x _ r s _ _ e hrs
    subst e
    exact .pure (.cons (.same rfl) .nil) hrs
  | ret | cond | loop | block | unsupported => exact .reject

/-- A clause of a header, which may be missing. -/
theorem optionSimple_agree (s : Option Stmt) (h : Beside p q) :
    Agree (fun fs gs : Option (List Fragment) =>
        fs.isSome = gs.isSome ∧
        ReuseList (Event.pairs (s.elim [] (Stmt.simpleTrace src q))) (fs.getD []) (gs.getD []))
      ((s.mapM (Stmt.lowerSimple src)).runFrom p) ((s.mapM (Stmt.lowerSimple src)).runFrom q) := by
  cases s with
  | none => exact .pure ⟨rfl, .nil⟩ h
  | some s => exact (s.lowerSimple_agree h).map fun fs gs hfs => ⟨rfl, hfs⟩

end Simple

/-! ## Statements and blocks -/

theorem Target.Stmt.cond_reuse {ps qs rs : List (String × Scope)}
    {init init' : Option (List Fragment)} {test : Target.Expr} {body body' : List Target.Stmt}
    {other other' : Target.Branch} (hs : init.isSome = init'.isSome)
    (hi : ReuseList ps (init.getD []) (init'.getD []))
    (hb : ReusePieces qs (Target.Stmt.listPieces body) (Target.Stmt.listPieces body'))
    (ho : ReusePieces rs other.pieces other'.pieces) :
    ReusePieces (ps ++ (qs ++ rs)) (Target.Stmt.cond init test body other).pieces
      (Target.Stmt.cond init' test body' other').pieces := by
  cases init with
  | none =>
    cases init' with
    | some gs => cases hs
    | none =>
      cases hi
      rw [Target.Stmt.pieces, Target.Stmt.pieces]
      exact (ReusePieces.conditional test hb ho).append_glue _
  | some fs =>
    cases init' with
    | none => cases hs
    | some gs =>
      rw [Target.Stmt.pieces, Target.Stmt.pieces]
      exact .enclosed hi (.conditional test hb ho)

/-- Reused or not, a clause keeps its fragments, so the loop keeps its form. -/
theorem Target.Stmt.loop_reuse {ps qs rs : List (String × Scope)} {init init' : List Fragment}
    {test : Option Target.Expr} {post post' : List Fragment} {body body' : List Target.Stmt}
    (hi : ReuseList ps init init') (hp : ReuseList qs post post')
    (hb : ReusePieces rs (Target.Stmt.listPieces body) (Target.Stmt.listPieces body')) :
    ReusePieces (ps ++ (qs ++ rs)) (Target.Stmt.loop init test post body).pieces
      (Target.Stmt.loop init' test post' body').pieces := by
  cases hi with
  | nil =>
    rw [Target.Stmt.pieces, Target.Stmt.pieces]
    exact (ReusePieces.loop test .nil hp hb).append_glue _
  | cons hf hr =>
    cases hr with
    | nil =>
      rw [Target.Stmt.pieces, Target.Stmt.pieces]
      exact (ReusePieces.loop test (.fragment hf .nil) hp hb).append_glue _
    | cons hg hr =>
      simp only [Target.Stmt.pieces]
      exact .enclosed (.cons hf (.cons hg hr)) (.loop test .nil hp hb)

section Blocks

variable {src : Source}

/-- Targets of the two runs of a part whose trace has the pairs `ps`. -/
abbrev ReuseBody (ps : List (String × Scope)) (ts us : List Target.Stmt) : Prop :=
  ReusePieces ps (Target.Stmt.listPieces ts) (Target.Stmt.listPieces us)

mutual

theorem Stmt.lower_agree : ∀ (s : Stmt) {p q : Progress}, Beside p q →
    Agree (fun t u => ReusePieces (Event.pairs (s.trace src q)) t.pieces u.pieces)
      ((s.lower src).runFrom p) ((s.lower src).runFrom q)
  | .ret results span, p, q, h => by
    rcases results with _ | ⟨v, _ | ⟨w, rest⟩⟩
    · exact .pure (.glue .nil) h
    · rw [Stmt.lower]
      refine (Agree.expr src v h).bind ?_
      intro x _ r s _ _ e hrs
      subst e
      exact .pure (.glue (.expr (.glue .nil))) hrs
    · rw [Stmt.lower]
      · exact .reject
      · exact List.cons_ne_nil _ _
      · simp
  | .unsupported span, p, q, h => by
    rw [Stmt.lower]
    exact .reject
  | .assign lhs op rhs span, p, q, h => by
    rw [Stmt.lower, Stmt.trace]
    exact (Stmt.lowerSimple_agree _ h).map fun fs gs hfs => .lines hfs
  | .decl kind specs span, p, q, h => by
    rw [Stmt.lower, Stmt.trace]
    exact (Stmt.lowerSimple_agree _ h).map fun fs gs hfs => .lines hfs
  | .step operand op span, p, q, h => by
    rw [Stmt.lower, Stmt.trace]
    exact (Stmt.lowerSimple_agree _ h).map fun fs gs hfs => .lines hfs
  | .cond init test body other span, p, q, h => by
    rw [Stmt.lower]
    refine .inChild h ((optionSimple_agree init h.inner).bind ?_)
    intro init₁ init₂ p₁ q₁ _ hq₁ hi h₁
    refine (Agree.expr src test h₁).bind ?_
    intro test' _ p₂ q₂ _ hq₂ e h₂
    subst e
    refine (Block.lower_agree body h₂).bind ?_
    intro body₁ body₂ p₃ q₃ _ hq₃ hb h₃
    refine (Stmt.lowerOther_agree other h₃).bind ?_
    intro other₁ other₂ p₄ q₄ _ hq₄ ho h₄
    refine .pure ?_ h₄
    simp only [Stmt.trace, Lowering.after_of_ok hq₁, Lowering.after_of_ok hq₂,
      Lowering.after_of_ok hq₃, Event.pairs_append, Event.pairs_leave, List.append_nil,
      List.append_assoc]
    exact Target.Stmt.cond_reuse hi.1 hi.2 hb ho
  | .loop init test post body span, p, q, h => by
    rw [Stmt.lower]
    refine .inChild h ((optionSimple_agree init h.inner).bind ?_)
    intro init₁ init₂ p₁ q₁ _ hq₁ hi h₁
    refine (Agree.optionExpr src test h₁).bind ?_
    intro test' _ p₂ q₂ _ hq₂ e h₂
    subst e
    refine (optionSimple_agree post h₂).bind ?_
    intro post₁ post₂ p₃ q₃ _ hq₃ hp h₃
    refine (Block.lower_agree body h₃).bind ?_
    intro body₁ body₂ p₄ q₄ _ hq₄ hb h₄
    refine .pure ?_ h₄
    simp only [Stmt.trace, Lowering.after_of_ok hq₁, Lowering.after_of_ok hq₂,
      Lowering.after_of_ok hq₃, Event.pairs_append, Event.pairs_leave, List.append_nil,
      List.append_assoc]
    exact Target.Stmt.loop_reuse hi.2 hp.2 hb
  | .block body, p, q, h => by
    rw [Stmt.lower, Stmt.trace]
    refine (Block.lower_agree body h).bind ?_
    intro body₁ body₂ r s _ _ hb hrs
    refine .pure ?_ hrs
    rw [Target.Stmt.pieces, Target.Stmt.pieces]
    exact hb.braced.append_glue _

theorem Stmt.lowerOther_agree : ∀ (other : Option Stmt) {p q : Progress}, Beside p q →
    Agree (fun b c => ReusePieces (Event.pairs (Stmt.otherTrace src other q)) b.pieces c.pieces)
      ((Stmt.lowerOther src other).runFrom p) ((Stmt.lowerOther src other).runFrom q)
  | none, p, q, h => by
    rw [Stmt.lowerOther]
    exact .pure .nil h
  | some (.block body), p, q, h => by
    rw [Stmt.lowerOther, Stmt.otherTrace]
    refine (Block.lower_agree body h).bind ?_
    intro body₁ body₂ r s _ _ hb hrs
    refine .pure ?_ hrs
    rw [Target.Branch.pieces, Target.Branch.pieces]
    exact .glue hb.braced
  | some (.cond none test body other span), p, q, h => by
    rw [Stmt.lowerOther]
    refine (Agree.expr src test h).bind ?_
    intro test' _ p₁ q₁ _ hq₁ e h₁
    subst e
    refine (Block.lower_agree body h₁).bind ?_
    intro body₁ body₂ p₂ q₂ _ hq₂ hb h₂
    refine (Stmt.lowerOther_agree other h₂).bind ?_
    intro other₁ other₂ p₃ q₃ _ _ ho h₃
    refine .pure ?_ h₃
    simp only [Stmt.otherTrace, Lowering.after_of_ok hq₁, Lowering.after_of_ok hq₂,
      Event.pairs_append]
    rw [Target.Branch.pieces, Target.Branch.pieces]
    exact .glue (.conditional test' hb ho)
  | some (.cond (some init) test body other span), p, q, h => by
    rw [Stmt.lowerOther]
    refine .inChild h ((init.lowerSimple_agree h.inner).bind ?_)
    intro init₁ init₂ p₁ q₁ _ hq₁ hi h₁
    refine (Agree.expr src test h₁).bind ?_
    intro test' _ p₂ q₂ _ hq₂ e h₂
    subst e
    refine (Block.lower_agree body h₂).bind ?_
    intro body₁ body₂ p₃ q₃ _ hq₃ hb h₃
    refine (Stmt.lowerOther_agree other h₃).bind ?_
    intro other₁ other₂ p₄ q₄ _ hq₄ ho h₄
    refine .pure ?_ h₄
    simp only [Stmt.otherTrace, Lowering.after_of_ok hq₁, Lowering.after_of_ok hq₂,
      Lowering.after_of_ok hq₃, Event.pairs_append, Event.pairs_leave, List.append_nil,
      List.append_assoc]
    rw [Target.Branch.pieces, Target.Branch.pieces]
    exact .glue ((ReusePieces.enclosed hi (.conditional test' hb ho)).append_glue _)
  | some (.ret ..), p, q, h | some (.assign ..), p, q, h | some (.decl ..), p, q, h
  | some (.step ..), p, q, h | some (.loop ..), p, q, h | some (.unsupported _), p, q, h => .reject

theorem Stmt.lowerList_agree : ∀ (ss : List Stmt) {p q : Progress}, Beside p q →
    Agree (ReuseBody (Event.pairs (Stmt.listTrace src ss q)))
      ((Stmt.lowerList src ss).runFrom p) ((Stmt.lowerList src ss).runFrom q)
  | [], p, q, h => by
    rw [Stmt.lowerList]
    exact .pure .nil h
  | s :: ss, p, q, h => by
    rw [Stmt.lowerList]
    refine (Stmt.lower_agree s h).bind ?_
    intro t u r s' _ hs' ht hrs
    refine (Stmt.lowerList_agree ss hrs).bind ?_
    intro ts us r' s'' _ _ hts hrs'
    refine .pure ?_ hrs'
    rw [Stmt.listTrace, Lowering.after_of_ok hs', Event.pairs_append]
    exact ht.append hts

theorem Block.lower_agree : ∀ (b : Block) {p q : Progress}, Beside p q →
    Agree (ReuseBody (Event.pairs (b.trace src q)))
      ((b.lower src).runFrom p) ((b.lower src).runFrom q)
  | .mk ss span, p, q, h => by
    rw [Block.lower, Block.trace, Event.pairs_append, Event.pairs_leave, List.append_nil]
    exact .inChild h (Stmt.lowerList_agree ss h.inner)

end

end Blocks

/-! ## Functions -/

section Funcs

variable {src : Source} {p q : Progress}

theorem lowerParamNames_agree (type : Primitive) (names : List Ident) (h : Beside p q) :
    Agree Eq ((lowerParamNames type names).runFrom p) ((lowerParamNames type names).runFrom q) := by
  induction names generalizing p q with
  | nil => exact .pure rfl h
  | cons x names ih =>
    have hd : Agree (fun _ _ => True) ((Lowering.declare x).runFrom p)
        ((Lowering.declare x).runFrom q) := by
      cases hb : x.isBlank with
      | true =>
        rw [Lowering.declare_runFrom, Lowering.declare_runFrom, Scope.declare?, Scope.declare?,
          if_pos hb, if_pos hb]
        exact .ok trivial h
      | false => exact (Agree.declare hb h).mono fun _ _ _ => trivial
    refine hd.bind ?_
    intro _ _ r s _ _ _ hrs
    refine (ih hrs).bind ?_
    intro params _ r s _ _ e hrs
    subst e
    exact .pure rfl hrs

theorem lowerParams_agree (fields : List Field) (h : Beside p q) :
    Agree Eq ((lowerParams src fields).runFrom p) ((lowerParams src fields).runFrom q) := by
  induction fields generalizing p q with
  | nil => exact .pure rfl h
  | cons field fields ih =>
    have hf : Agree Eq ((field.lowerParam src).runFrom p) ((field.lowerParam src).runFrom q) := by
      unfold Field.lowerParam
      refine (Agree.lift _ h).bind ?_
      intro type _ r s _ _ e hrs
      subst e
      split
      · exact .reject
      · exact lowerParamNames_agree type field.names hrs
    refine hf.bind ?_
    intro ps _ r s _ _ e hrs
    subst e
    refine (ih hrs).bind ?_
    intro qs _ r s _ _ e hrs
    subst e
    exact .pure rfl hrs

theorem Func.lowerParts_agree (f : Func) (h : Beside p q) :
    Agree (fun t u => ReusePieces (Event.pairs (f.trace src q)) t.pieces u.pieces)
      ((f.lowerParts src).runFrom p) ((f.lowerParts src).runFrom q) := by
  unfold Func.lowerParts Func.trace
  refine (Agree.lift _ h).bind ?_
  intro result _ p₁ q₁ _ hq₁ e h₁
  subst e
  obtain ⟨-, rfl⟩ := Lowering.lift_ok.1 hq₁
  refine (lowerParams_agree f.params.fields h₁).bind ?_
  intro params _ p₂ q₂ _ hq₂ e h₂
  subst e
  rw [Lowering.after_of_ok hq₂]
  have hb : Agree (ReuseBody (Event.pairs (f.body.elim [] (Block.trace src · q₂))))
      ((f.body.elim (pure []) (Block.lower src)).runFrom p₂)
      ((f.body.elim (pure []) (Block.lower src)).runFrom q₂) := by
    cases f.body with
    | none => exact .pure .nil h₂
    | some b => exact Block.lower_agree b h₂
  refine hb.bind ?_
  intro body₁ body₂ p₃ q₃ _ _ hb h₃
  refine .pure ?_ h₃
  exact .glue (hb.braced.append_glue _)

end Funcs

/-- **Chained lowering refines isolated lowering.** If a function is lowered with isolated levels,
it is with chained ones, with the same losses; piece for piece the text is the same, except that a
pair of `:=` loses its `auto` if its name was declared, at that point of the chained run, around
the level. A failure of the isolated run is that of the chained one, unless a name was declared
again; and a failure of the chained run is that of the isolated one, unless that declared a name
again. -/
theorem chained_refines_isolated (src : Source) (f : Func) :
    (∀ l, f.lower src .isolated = .ok l →
      ∃ m, f.lower src .chained = .ok m ∧ m.lost = l.lost ∧
        l.text = Target.Piece.join l.func.pieces ∧ m.text = Target.Piece.join m.func.pieces ∧
        ReusePieces (Event.pairs (f.trace src ⟨.root .chained, []⟩)) l.func.pieces
          m.func.pieces) ∧
    (∀ e, f.lower src .isolated = .error e → e.isDuplicate = false →
      f.lower src .chained = .error e) ∧
    ∀ e, f.lower src .chained = .error e →
      f.lower src .isolated = .error e ∨
        ∃ d, f.lower src .isolated = .error d ∧ d.isDuplicate = true := by
  have h := @Func.lowerParts_agree src _ _ f Beside.root
  unfold Func.lower
  generalize (f.lowerParts src).runFrom ⟨.root .isolated, []⟩ = rp at h ⊢
  generalize (f.lowerParts src).runFrom ⟨.root .chained, []⟩ = rq at h ⊢
  cases h with
  | @ok t u p q ht hpq =>
    refine ⟨?_, ?_, ?_⟩
    · intro l h
      cases h
      exact ⟨⟨u, q.lost⟩, rfl, hpq.lost, t.text_eq_join, u.text_eq_join, ht⟩
    · intro e h
      cases h
    · intro e h
      cases h
  | error =>
    refine ⟨?_, ?_, ?_⟩
    · intro l h
      cases h
    · intro e h _
      cases h
      rfl
    · intro e h
      cases h
      exact .inl rfl
  | @duplicate d p r hd =>
    refine ⟨?_, ?_, ?_⟩
    · intro l h
      cases h
    · intro e h he
      cases h
      rw [hd] at he
      cases he
    · intro e _
      exact .inr ⟨d, rfl, hd⟩

/-- `x` is declared again inside the `if`, or assigned to, by the policy. -/
theorem chained_refines_isolated_nested :
    ∃ l m, Func.nested.lower ⟨""⟩ .isolated = .ok l ∧ Func.nested.lower ⟨""⟩ .chained = .ok m ∧
      ReusePieces (Event.pairs (Func.nested.trace ⟨""⟩ ⟨.root .chained, []⟩)) l.func.pieces
        m.func.pieces ∧
      .fragment (.bind "x" (.literal "2")) ∈ l.func.pieces ∧
      .fragment (.rebind "x" (.literal "2")) ∈ m.func.pieces := by
  obtain ⟨m, hm, -, -, -, hr⟩ := (chained_refines_isolated ⟨""⟩ Func.nested).1 _ rfl
  refine ⟨_, m, rfl, hm, hr, by decide, ?_⟩
  cases hm
  decide

end Recast
