import Recast.Proofs.Runs
import Recast.Proofs.Pieces

/-!
# Losses

What a function loses, by a walk of its tree alone: the positions that are lowered, in the order
in which they are. Lowering records exactly these losses (`losses_exact`), each with the span of
its call and the source text there, and it writes one placeholder for each call that has no
counterpart.
-/

namespace Recast

open Target (Fragment)

/-- A loss and the span of the call that it happens in. -/
abbrev Spot := Loss × Span

namespace Expr

mutual

/-- The losses of an expression, operands from left to right. A call without a counterpart is lost
as a whole; one that makes a message loses what its first argument loses, and then its other
arguments. -/
def losses : Expr → List Spot
  | .literal .. | .name _ | .selector .. | .unsupported _ => []
  | .binary _ l r _ => l.losses ++ r.losses
  | .unary _ x _ | .paren x _ => x.losses
  | .call callee args span =>
    if callee.idiom?.isSome then messageLosses span args else [(.unrecognizedCall, span)]
termination_by structural e => e

def messageLosses (span : Span) : List Expr → List Spot
  | [] => []
  | first :: rest =>
    first.losses ++ if rest.isEmpty then [] else [(.droppedArguments rest.length, span)]
termination_by structural args => args

end

/-- The losses of expressions in order. -/
def listLosses (es : List Expr) : List Spot := es.flatMap losses

theorem listLosses_singleton (e : Expr) : listLosses [e] = e.losses := List.flatMap_singleton _ _

end Expr

/-- The losses of one pair of an assignment, the right side before the left. On the left of `=`
the blank name is not looked at. -/
def pairLosses (op : Operator) (lhs rhs : Expr) : List Spot :=
  rhs.losses ++ if op = .assign ∧ lhs.name?.any Ident.isBlank = true then [] else lhs.losses

/-- The losses of a simple statement. Where names are declared, only the values count. -/
def Stmt.simpleLosses : Stmt → List Spot
  | .assign lhs op rhs _ =>
    if op = .define then Expr.listLosses rhs
    else (lhs.zip rhs).flatMap fun (l, r) => pairLosses op l r
  | .decl _ specs _ => specs.flatMap fun spec => Expr.listLosses spec.values
  | .step operand _ _ => operand.losses
  | _ => []

mutual

/-- The losses of a statement: initializer, condition, body, other branch of a conditional;
initializer, condition, last clause, body of a loop. -/
def Stmt.losses : Stmt → List Spot
  | .ret results _ => Expr.listLosses results
  | .assign lhs op rhs span => Stmt.simpleLosses (.assign lhs op rhs span)
  | .decl kind specs span => Stmt.simpleLosses (.decl kind specs span)
  | .step operand op span => Stmt.simpleLosses (.step operand op span)
  | .cond init test body other _ =>
    init.elim [] Stmt.simpleLosses ++ test.losses ++ body.losses ++ Stmt.otherLosses other
  | .loop init test post body _ =>
    init.elim [] Stmt.simpleLosses ++ test.elim [] Expr.losses ++ post.elim [] Stmt.simpleLosses
      ++ body.losses
  | .block body => body.losses
  | .unsupported _ => []
termination_by structural s => s

def Stmt.otherLosses : Option Stmt → List Spot
  | none => []
  | some s => s.losses
termination_by structural s => s

def Stmt.listLosses : List Stmt → List Spot
  | [] => []
  | s :: ss => s.losses ++ Stmt.listLosses ss
termination_by structural ss => ss

def Block.losses : Block → List Spot
  | .mk ss _ => Stmt.listLosses ss
termination_by structural b => b

end

/-- The losses of a function are those of its body. -/
def Func.losses (f : Func) : List Spot := f.body.elim [] Block.losses

/-! ## Placeholders of a text -/

namespace Target

def Expr.placeholders : Expr → Nat
  | .literal _ | .name _ => 0
  | .binary _ l r => l.placeholders + r.placeholders
  | .unary _ x | .paren x | .message x => x.placeholders
  | .placeholder => 1

def Fragment.placeholders : Fragment → Nat
  | .bind _ v | .rebind _ v | .discard v => v.placeholders
  | .assign t _ v => v.placeholders + t.placeholders
  | .declare _ _ _ v => v.elim 0 Expr.placeholders
  | .step x _ => x.placeholders

/-- The placeholders of fragments in order. -/
def Fragment.listPlaceholders (fs : List Fragment) : Nat :=
  fs.foldr (fun f n => f.placeholders + n) 0

theorem Fragment.listPlaceholders_cons (f : Fragment) (fs : List Fragment) :
    listPlaceholders (f :: fs) = f.placeholders + listPlaceholders fs := rfl

theorem Fragment.listPlaceholders_append (fs gs : List Fragment) :
    listPlaceholders (fs ++ gs) = listPlaceholders fs + listPlaceholders gs := by
  induction fs with
  | nil => simp [listPlaceholders]
  | cons f fs ih =>
    rw [List.cons_append, listPlaceholders_cons, listPlaceholders_cons, ih]
    omega

namespace Piece

def placeholders : Piece → Nat
  | .glue _ => 0
  | .expr x => x.placeholders
  | .fragment f => f.placeholders

/-- The placeholders of pieces together. -/
def listPlaceholders (ps : List Piece) : Nat := ps.foldr (fun p n => p.placeholders + n) 0

@[simp] theorem listPlaceholders_nil : listPlaceholders [] = 0 := rfl

@[simp] theorem listPlaceholders_cons (p : Piece) (ps : List Piece) :
    listPlaceholders (p :: ps) = p.placeholders + listPlaceholders ps := rfl

@[simp] theorem listPlaceholders_append (ps qs : List Piece) :
    listPlaceholders (ps ++ qs) = listPlaceholders ps + listPlaceholders qs := by
  induction ps with
  | nil => simp
  | cons p ps ih =>
    rw [List.cons_append, listPlaceholders_cons, listPlaceholders_cons, ih]
    omega

@[simp] theorem placeholders_glue (t : String) : (glue t).placeholders = 0 := rfl

@[simp] theorem placeholders_expr (x : Expr) : (expr x).placeholders = x.placeholders := rfl

@[simp] theorem placeholders_fragment (f : Fragment) :
    (fragment f).placeholders = f.placeholders := rfl

theorem lines_placeholders (fs : List Fragment) :
    listPlaceholders (lines fs) = Fragment.listPlaceholders fs := by
  induction fs with
  | nil => rfl
  | cons f fs ih =>
    have h : lines (f :: fs) = .fragment f :: .glue ";\n" :: lines fs := rfl
    rw [h, listPlaceholders_cons, listPlaceholders_cons, ih, Fragment.listPlaceholders_cons]
    simp

theorem clause_placeholders (fs : List Fragment) :
    listPlaceholders (clause fs) = Fragment.listPlaceholders fs := by
  induction fs with
  | nil => rfl
  | cons f fs ih =>
    cases fs with
    | nil => rfl
    | cons g fs =>
      rw [clause, listPlaceholders_cons, listPlaceholders_cons, ih,
        Fragment.listPlaceholders_cons f]
      simp

theorem padded_placeholders (fs : List Fragment) :
    listPlaceholders (padded fs) = Fragment.listPlaceholders fs := by
  cases fs with
  | nil => rfl
  | cons f fs =>
    rw [padded, List.isEmpty_cons, if_neg Bool.false_ne_true, listPlaceholders_cons,
      clause_placeholders]
    simp

theorem test_placeholders (test : Option Expr) :
    listPlaceholders (Piece.test test) = test.elim 0 Expr.placeholders := by
  cases test with
  | none => rfl
  | some x =>
    rw [Piece.test]
    split <;> simp

theorem braced_placeholders (body : List Piece) :
    listPlaceholders (braced body) = listPlaceholders body := by
  simp [braced]

theorem enclosed_placeholders (fs : List Fragment) (inner : List Piece) :
    listPlaceholders (enclosed fs inner) =
      Fragment.listPlaceholders fs + listPlaceholders inner := by
  simp [enclosed, lines_placeholders]

theorem conditional_placeholders (test : Expr) (body other : List Piece) :
    listPlaceholders (conditional test body other) =
      test.placeholders + listPlaceholders body + listPlaceholders other := by
  simp [conditional, braced_placeholders, Nat.add_assoc]

theorem loop_placeholders (init : List Piece) (test : Option Expr) (post : List Fragment)
    (body : List Piece) :
    listPlaceholders (loop init test post body) =
      listPlaceholders init + test.elim 0 Expr.placeholders + Fragment.listPlaceholders post
        + listPlaceholders body := by
  simp [loop, test_placeholders, padded_placeholders, braced_placeholders, Nat.add_assoc]

end Piece

/-- A loop writes each clause of its header once, be it inside the header or before it. -/
theorem Stmt.loop_placeholders (init : List Fragment) (test : Option Expr)
    (post : List Fragment) (body : List Stmt) :
    Piece.listPlaceholders (Stmt.loop init test post body).pieces =
      Fragment.listPlaceholders init + test.elim 0 Expr.placeholders
        + Fragment.listPlaceholders post + Piece.listPlaceholders (Stmt.listPieces body) := by
  rcases init with _ | ⟨f, _ | ⟨g, fs⟩⟩
  · rw [Stmt.pieces, Piece.listPlaceholders_append, Piece.loop_placeholders]
    simp [Fragment.listPlaceholders]
  · rw [Stmt.pieces, Piece.listPlaceholders_append, Piece.loop_placeholders]
    simp [Fragment.listPlaceholders]
  · simp only [Stmt.pieces, Piece.enclosed_placeholders, Piece.loop_placeholders]
    simp [Nat.add_assoc]

theorem Stmt.cond_placeholders (init : Option (List Fragment)) (test : Expr) (body : List Stmt)
    (other : Branch) :
    Piece.listPlaceholders (Stmt.cond init test body other).pieces =
      Fragment.listPlaceholders (init.getD []) + test.placeholders
        + Piece.listPlaceholders (Stmt.listPieces body)
        + Piece.listPlaceholders other.pieces := by
  cases init with
  | none =>
    rw [Stmt.pieces, Piece.listPlaceholders_append, Piece.conditional_placeholders]
    simp [Fragment.listPlaceholders]
  | some fs =>
    rw [Stmt.pieces, Piece.enclosed_placeholders, Piece.conditional_placeholders]
    simp [Nat.add_assoc]

end Target

/-! ## Recording losses -/

/-- The calls among some losses that have no counterpart. -/
def unrecognized (spots : List Spot) : Nat := spots.countP fun spot => spot.1 == .unrecognizedCall

/-- Degradations are those of given losses, each with the source text of its call. -/
structure Records (src : Source) (ds : List Degradation) (spots : List Spot) : Prop where
  spots : ds.map (fun d => (d.loss, d.span)) = spots
  quotes : ∀ d ∈ ds, src.slice? d.span = some d.quote

theorem Records.nil (src : Source) : Records src [] [] := ⟨rfl, by simp⟩

theorem Records.append {src : Source} {ds es : List Degradation} {xs ys : List Spot}
    (h : Records src ds xs) (k : Records src es ys) : Records src (ds ++ es) (xs ++ ys) := by
  refine ⟨by rw [List.map_append, h.spots, k.spots], ?_⟩
  intro d hd
  rcases List.mem_append.1 hd with hd | hd
  · exact h.quotes d hd
  · exact k.quotes d hd

theorem Records.singleton {src : Source} {loss : Loss} {span : Span} {t : String}
    (h : src.slice? span = some t) : Records src [⟨loss, t, span⟩] [(loss, span)] :=
  ⟨rfl, by simpa using h⟩

/-- A part of a run records some losses and writes as many placeholders as there are calls without
a counterpart among them. -/
structure Spends (src : Source) (p q : Progress) (spots : List Spot) (marks : Nat) : Prop where
  lost : ∃ ds, q.lost = p.lost ++ ds ∧ Records src ds spots
  marks : marks = unrecognized spots

namespace Spends

variable {src : Source} {p q r : Progress} {xs ys : List Spot} {m n : Nat}

theorem refl (h : q.lost = p.lost) : Spends src p q [] 0 :=
  ⟨⟨[], by rw [h, List.append_nil], .nil src⟩, rfl⟩

theorem trans (h : Spends src p q xs m) (k : Spends src q r ys n) :
    Spends src p r (xs ++ ys) (m + n) := by
  obtain ⟨ds, hd, hx⟩ := h.lost
  obtain ⟨es, he, hy⟩ := k.lost
  refine ⟨⟨ds ++ es, by rw [he, hd, List.append_assoc], hx.append hy⟩, ?_⟩
  rw [h.marks, k.marks, unrecognized, unrecognized, unrecognized, List.countP_append]

theorem congr {p' q' : Progress} (h : Spends src p q xs m) (hp : p'.lost = p.lost)
    (hq : q'.lost = q.lost) : Spends src p' q' xs m := by
  obtain ⟨ds, hd, hx⟩ := h.lost
  exact ⟨⟨ds, by rw [hq, hp, hd], hx⟩, h.marks⟩

end Spends

/-! ## Expressions -/

section Exprs

variable {src : Source}

mutual

theorem Expr.lower_records : ∀ (e : Expr) {x : Target.Expr} {ds : List Degradation},
    e.lower src = ⟨.ok x, ds⟩ →
    Records src ds e.losses ∧ x.placeholders = unrecognized e.losses
  | .literal t span, x, ds, h | .name n, x, ds, h => by
    cases h
    exact ⟨.nil src, rfl⟩
  | .selector e field span, x, ds, h | .unsupported span, x, ds, h => by cases h
  | .binary op l r span, x, ds, h => by
    obtain ⟨l', ls, r', rs, hl, hr, rfl, rfl⟩ := Expr.lower_binary_ok.1 h
    obtain ⟨hls, hlm⟩ := Expr.lower_records l hl
    obtain ⟨hrs, hrm⟩ := Expr.lower_records r hr
    refine ⟨hls.append hrs, ?_⟩
    rw [Target.Expr.placeholders, hlm, hrm, Expr.losses, unrecognized, unrecognized, unrecognized,
      List.countP_append]
  | .unary op e span, x, ds, h => by
    obtain ⟨-, e', he, rfl⟩ := Expr.lower_unary_ok.1 h
    obtain ⟨hr, hm⟩ := Expr.lower_records e he
    exact ⟨hr, hm⟩
  | .paren e span, x, ds, h => by
    obtain ⟨e', he, rfl⟩ := Expr.lower_paren_ok.1 h
    obtain ⟨hr, hm⟩ := Expr.lower_records e he
    exact ⟨hr, hm⟩
  | .call callee args span, x, ds, h => by
    rw [Expr.lower] at h
    rw [Expr.losses]
    split at h
    · rename_i hc
      rw [if_pos hc]
      exact Expr.lowerMessage_records args h
    · rename_i hc
      obtain ⟨t, ht, rfl, rfl⟩ := Expr.placeholder_ok.1 h
      rw [if_neg hc]
      exact ⟨.singleton ht, rfl⟩

theorem Expr.lowerMessage_records : ∀ (args : List Expr) {span : Span} {x : Target.Expr}
    {ds : List Degradation}, Expr.lowerMessage src span args = ⟨.ok x, ds⟩ →
    Records src ds (Expr.messageLosses span args) ∧
      x.placeholders = unrecognized (Expr.messageLosses span args)
  | [], span, x, ds, h => by cases h
  | first :: rest, span, x, ds, h => by
    obtain ⟨_, _, x', xs, ys, ⟨⟩, hx, hy, rfl, rfl⟩ := Expr.lowerMessage_ok.1 h
    obtain ⟨hxs, hxm⟩ := Expr.lower_records first hx
    have hys : Records src ys
        (if rest.isEmpty then [] else [(.droppedArguments rest.length, span)]) := by
      rcases Expr.dropped_ok.1 hy with ⟨hn, rfl⟩ | ⟨t, hn, ht, rfl⟩
      · rw [if_pos (by simpa using hn)]
        exact .nil src
      · rw [if_neg (by simpa using List.ne_nil_of_length_pos hn)]
        exact .singleton ht
    refine ⟨hxs.append hys, ?_⟩
    rw [Target.Expr.placeholders, hxm, Expr.messageLosses, unrecognized, unrecognized,
      List.countP_append]
    split <;> simp

end

end Exprs

section Runs

variable {src : Source} {p q : Progress}

theorem Lowering.expr_spends {e : Expr} {x : Target.Expr}
    (h : (Lowering.expr src e).runFrom p = (.ok x, q)) :
    Spends src p q e.losses x.placeholders := by
  obtain ⟨ds, he, rfl⟩ := Lowering.expr_ok.1 h
  obtain ⟨hr, hm⟩ := Expr.lower_records e he
  exact ⟨⟨ds, rfl, hr⟩, hm⟩

theorem Lowering.optionExpr_spends {e : Option Expr} {x : Option Target.Expr}
    (h : (e.mapM (Lowering.expr src)).runFrom p = (.ok x, q)) :
    Spends src p q (e.elim [] Expr.losses) (x.elim 0 Target.Expr.placeholders) := by
  cases e with
  | none =>
    obtain ⟨rfl, rfl⟩ := Lowering.mapM_none_ok.1 h
    exact .refl rfl
  | some e =>
    obtain ⟨y, hy, rfl⟩ := Lowering.mapM_some_ok.1 h
    exact Lowering.expr_spends hy

/-! ## Simple statements -/

theorem lowerPair_spends {op : Operator} {lhs rhs : Expr} {f : Fragment}
    (h : (lowerPair src op lhs rhs).runFrom p = (.ok f, q)) :
    Spends src p q (pairLosses op lhs rhs) f.placeholders := by
  cases lowerPair_ok h with
  | discard hb hv =>
    rw [pairLosses, if_pos hb, List.append_nil]
    exact Lowering.expr_spends hv
  | assign hb hv ht =>
    rw [pairLosses, if_neg hb]
    exact (Lowering.expr_spends hv).trans (Lowering.expr_spends ht)

theorem lowerAssign_spends {op : Operator} {pairs : List (Expr × Expr)} {fs : List Fragment}
    (h : (lowerAssign src op pairs).runFrom p = (.ok fs, q)) :
    Spends src p q (pairs.flatMap fun (l, r) => pairLosses op l r)
      (Fragment.listPlaceholders fs) := by
  induction pairs generalizing p fs with
  | nil =>
    obtain ⟨rfl, rfl⟩ := Lowering.pure_ok.1 h
    exact .refl rfl
  | cons pair pairs ih =>
    obtain ⟨f, r, gs, hf, hg, rfl⟩ := lowerAssign_cons_ok.1 h
    rw [Fragment.listPlaceholders_cons]
    exact (lowerPair_spends hf).trans (ih hg)

theorem lowerBinding_spends {x : Ident} {rhs : Expr} {f : Fragment}
    (h : (lowerBinding src x rhs).runFrom p = (.ok f, q)) :
    Spends src p q rhs.losses f.placeholders := by
  cases lowerBinding_ok h with
  | discard hb hv => exact Lowering.expr_spends hv
  | rebind hb hd hv => exact Lowering.expr_spends hv
  | bind hb hd hv => exact (Lowering.expr_spends hv).congr rfl rfl

theorem lowerBindings_spends {names : List Ident} {rhs : List Expr} {fs : List Fragment}
    (hl : names.length = rhs.length)
    (h : (lowerBindings src (names.zip rhs)).runFrom p = (.ok fs, q)) :
    Spends src p q (Expr.listLosses rhs) (Fragment.listPlaceholders fs) := by
  induction names generalizing p fs rhs with
  | nil =>
    obtain ⟨rfl, rfl⟩ := Lowering.pure_ok.1 h
    have hr : rhs = [] := List.length_eq_zero_iff.1 hl.symm
    subst hr
    exact .refl rfl
  | cons x names ih =>
    cases rhs with
    | nil => cases hl
    | cons e rhs =>
      obtain ⟨f, r, gs, hf, hg, rfl⟩ := lowerBindings_cons_ok.1 h
      rw [Fragment.listPlaceholders_cons]
      exact (lowerBinding_spends hf).trans (ih (Nat.succ.inj hl) hg)

theorem lowerName_spends {kind : DeclKind} {type : Option Primitive} {x : Ident}
    {v : Option Expr} {fs : List Fragment}
    (h : (lowerName src kind type x v).runFrom p = (.ok fs, q)) :
    Spends src p q (v.elim [] Expr.losses) (Fragment.listPlaceholders fs) := by
  cases lowerName_ok h with
  | skip hb hq => exact .refl (by rw [hq])
  | discard hb hv => exact Lowering.expr_spends hv
  | declare hb hd hv => exact (Lowering.optionExpr_spends hv).congr rfl rfl

theorem lowerNames_spends {kind : DeclKind} {type : Option Primitive} {names : List Ident}
    {values : List Expr} {fs : List Fragment}
    (hl : values = [] ∨ values.length = names.length)
    (h : (lowerNames src kind type names values).runFrom p = (.ok fs, q)) :
    Spends src p q (Expr.listLosses values) (Fragment.listPlaceholders fs) := by
  induction names generalizing p fs values with
  | nil =>
    obtain ⟨rfl, rfl⟩ := Lowering.pure_ok.1 h
    have hv : values = [] := hl.elim id List.length_eq_zero_iff.1
    subst hv
    exact .refl rfl
  | cons x names ih =>
    obtain ⟨gs, r, hs, hg, hh, rfl⟩ := lowerNames_cons_ok.1 h
    have hg := lowerName_spends hg
    rw [Fragment.listPlaceholders_append]
    cases values with
    | nil => exact hg.trans (ih (.inl rfl) hh)
    | cons v values =>
      have hl : values.length = names.length := Nat.succ.inj (hl.resolve_left (by simp))
      exact hg.trans (ih (.inr hl) hh)

theorem lowerSpecs_spends {kind : DeclKind} {specs : List ValueSpec} {fs : List Fragment}
    (h : (lowerSpecs src kind specs).runFrom p = (.ok fs, q)) :
    Spends src p q (specs.flatMap fun spec => Expr.listLosses spec.values)
      (Fragment.listPlaceholders fs) := by
  induction specs generalizing p fs with
  | nil =>
    obtain ⟨rfl, rfl⟩ := Lowering.pure_ok.1 h
    exact .refl rfl
  | cons spec specs ih =>
    obtain ⟨gs, r, hs, hg, hh, rfl⟩ := lowerSpecs_cons_ok.1 h
    obtain ⟨type, -, hl, hg⟩ := ValueSpec.lower_ok.1 hg
    rw [Fragment.listPlaceholders_append]
    exact (lowerNames_spends hl hg).trans (ih hh)

theorem Stmt.lowerSimple_spends {s : Stmt} {fs : List Fragment}
    (h : (s.lowerSimple src).runFrom p = (.ok fs, q)) :
    Spends src p q s.simpleLosses (Fragment.listPlaceholders fs) := by
  cases Stmt.lowerSimple_ok h with
  | define hl hn hr h =>
    have hn := Expr.names_length hn
    exact lowerBindings_spends (hn.trans hl) h
  | assign hl ho hd h =>
    rw [Stmt.simpleLosses, if_neg hd]
    exact lowerAssign_spends h
  | decl h => exact lowerSpecs_spends h
  | step hx => exact Lowering.expr_spends hx

theorem optionSimple_spends {s : Option Stmt} {fs : Option (List Fragment)}
    (h : (s.mapM (Stmt.lowerSimple src)).runFrom p = (.ok fs, q)) :
    Spends src p q (s.elim [] Stmt.simpleLosses) (Fragment.listPlaceholders (fs.getD [])) := by
  cases s with
  | none =>
    obtain ⟨rfl, rfl⟩ := Lowering.mapM_none_ok.1 h
    exact .refl rfl
  | some s =>
    obtain ⟨fs, hf, rfl⟩ := Lowering.mapM_some_ok.1 h
    exact Stmt.lowerSimple_spends hf

end Runs

/-! ## Statements and blocks

The losses of a conditional after `else` are those of a statement, although such a conditional
may share the header that is open: the header itself loses nothing. -/

section Blocks

variable {src : Source}

mutual

theorem Stmt.lower_spends : ∀ (s : Stmt) {p q : Progress} {t : Target.Stmt},
    (s.lower src).runFrom p = (.ok t, q) →
    Spends src p q s.losses (Target.Piece.listPlaceholders t.pieces)
  | .ret results span, p, q, t, h => by
    rcases Stmt.lower_ret_ok.1 h with ⟨rfl, rfl, rfl⟩ | ⟨v, x, rfl, hv, rfl⟩
    · exact .refl rfl
    · have hm : Target.Piece.listPlaceholders (Target.Stmt.ret (some x)).pieces =
          x.placeholders := by
        simp [Target.Stmt.pieces]
      rw [Stmt.losses, Expr.listLosses_singleton, hm]
      exact Lowering.expr_spends hv
  | .assign lhs op rhs span, p, q, t, h | .decl kind specs span, p, q, t, h
  | .step operand op span, p, q, t, h => by
    obtain ⟨fs, hf, rfl⟩ := (Stmt.lower_simple_ok rfl).1 h
    rw [Target.Stmt.pieces, Target.Piece.lines_placeholders]
    exact Stmt.lowerSimple_spends hf
  | .cond init test body other span, p, q, t, h => by
    obtain ⟨init', p₁, test', p₂, body', p₃, other', p₄, hi, ht, hb, ho, rfl, rfl⟩ :=
      Stmt.lower_cond_ok.1 h
    have hi := (optionSimple_spends hi).trans (Lowering.expr_spends ht)
    have hb := hi.trans (Block.lower_spends body hb)
    rw [Target.Stmt.cond_placeholders]
    exact (hb.trans (Stmt.lowerOther_spends other ho)).congr rfl rfl
  | .loop init test post body span, p, q, t, h => by
    obtain ⟨init', p₁, test', p₂, post', p₃, body', p₄, hi, ht, hp, hb, rfl, rfl⟩ :=
      Stmt.lower_loop_ok.1 h
    have ht := (optionSimple_spends hi).trans (Lowering.optionExpr_spends ht)
    have hp := ht.trans (optionSimple_spends hp)
    rw [Target.Stmt.loop_placeholders]
    exact (hp.trans (Block.lower_spends body hb)).congr rfl rfl
  | .block body, p, q, t, h => by
    obtain ⟨body', hb, rfl⟩ := Stmt.lower_block_ok.1 h
    have hb := Block.lower_spends body hb
    rw [Target.Stmt.pieces, Target.Piece.listPlaceholders_append,
      Target.Piece.braced_placeholders]
    exact hb
  | .unsupported span, p, q, t, h => absurd h Stmt.lower_unsupported_ok

theorem Stmt.lowerOther_spends : ∀ (other : Option Stmt) {p q : Progress} {b : Target.Branch},
    (Stmt.lowerOther src other).runFrom p = (.ok b, q) →
    Spends src p q (Stmt.otherLosses other) (Target.Piece.listPlaceholders b.pieces)
  | none, p, q, b, h => by
    obtain ⟨rfl, rfl⟩ := Stmt.lowerOther_none_ok.1 h
    exact .refl rfl
  | some (.block body), p, q, b, h => by
    obtain ⟨body', hb, rfl⟩ := Stmt.lowerOther_block_ok.1 h
    have hb := Block.lower_spends body hb
    rw [Target.Branch.pieces, Target.Piece.listPlaceholders_cons,
      Target.Piece.braced_placeholders, Target.Piece.placeholders_glue, Nat.zero_add]
    exact hb
  | some (.cond none test body other span), p, q, b, h => by
    obtain ⟨test', p₁, body', p₂, other', ht, hb, ho, rfl⟩ := Stmt.lowerOther_chain_ok.1 h
    have hb := (Lowering.expr_spends ht).trans (Block.lower_spends body hb)
    have ho := hb.trans (Stmt.lowerOther_spends other ho)
    rw [Target.Branch.pieces, Target.Piece.listPlaceholders_cons,
      Target.Piece.conditional_placeholders, Target.Piece.placeholders_glue, Nat.zero_add]
    exact ho
  | some (.cond (some init) test body other span), p, q, b, h => by
    obtain ⟨init', p₁, test', p₂, body', p₃, other', p₄, hi, ht, hb, ho, rfl, rfl⟩ :=
      Stmt.lowerOther_wrapped_ok.1 h
    have hb := (Lowering.expr_spends ht).trans (Block.lower_spends body hb)
    have ho := (Stmt.lowerSimple_spends hi).trans (hb.trans (Stmt.lowerOther_spends other ho))
    rw [Target.Branch.pieces, Target.Piece.listPlaceholders_cons,
      Target.Piece.listPlaceholders_append, Target.Piece.enclosed_placeholders,
      Target.Piece.conditional_placeholders, Target.Piece.placeholders_glue, Nat.zero_add]
    rw [← List.append_assoc, ← List.append_assoc] at ho
    exact ho.congr rfl rfl
  | some (.ret ..), p, q, b, h | some (.assign ..), p, q, b, h | some (.decl ..), p, q, b, h
  | some (.step ..), p, q, b, h | some (.loop ..), p, q, b, h
  | some (.unsupported _), p, q, b, h => absurd h Lowering.reject_ok

theorem Stmt.lowerList_spends : ∀ (ss : List Stmt) {p q : Progress} {ts : List Target.Stmt},
    (Stmt.lowerList src ss).runFrom p = (.ok ts, q) →
    Spends src p q (Stmt.listLosses ss)
      (Target.Piece.listPlaceholders (Target.Stmt.listPieces ts))
  | [], p, q, ts, h => by
    obtain ⟨rfl, rfl⟩ := Stmt.lowerList_nil_ok.1 h
    exact .refl rfl
  | s :: ss, p, q, ts, h => by
    obtain ⟨t, r, us, ht, hu, rfl⟩ := Stmt.lowerList_cons_ok.1 h
    rw [Target.Stmt.listPieces, Target.Piece.listPlaceholders_append]
    exact (Stmt.lower_spends s ht).trans (Stmt.lowerList_spends ss hu)

theorem Block.lower_spends : ∀ (b : Block) {p q : Progress} {ts : List Target.Stmt},
    (b.lower src).runFrom p = (.ok ts, q) →
    Spends src p q b.losses (Target.Piece.listPlaceholders (Target.Stmt.listPieces ts))
  | .mk ss span, p, q, ts, h => by
    obtain ⟨r, hr, rfl⟩ := Block.lower_ok.1 h
    exact (Stmt.lowerList_spends ss hr).congr rfl rfl

end

end Blocks

/-! ## Functions -/

section Params

variable {p q : Progress} {params : List (Primitive × String)}

theorem lowerParamNames_lost {type : Primitive} {names : List Ident}
    (h : (lowerParamNames type names).runFrom p = (.ok params, q)) : q.lost = p.lost := by
  induction names generalizing p params with
  | nil => rw [(Lowering.pure_ok.1 h).2]
  | cons x names ih =>
    obtain ⟨s, rest, -, hr, -⟩ := lowerParamNames_cons_ok.1 h
    have hl := ih hr
    exact hl

theorem lowerParams_lost {src : Source} {fields : List Field}
    (h : (lowerParams src fields).runFrom p = (.ok params, q)) : q.lost = p.lost := by
  induction fields generalizing p params with
  | nil => rw [(Lowering.pure_ok.1 h).2]
  | cons field fields ih =>
    obtain ⟨ps, r, qs, hp, hq, -⟩ := lowerParams_cons_ok.1 h
    obtain ⟨type, -, -, hn⟩ := Field.lowerParam_ok.1 hp
    rw [ih hq, lowerParamNames_lost hn]

end Params

theorem Func.lowerParts_spends {src : Source} {f : Func} {p q : Progress} {t : Target.Func}
    (h : (f.lowerParts src).runFrom p = (.ok t, q)) :
    Spends src p q f.losses (Target.Piece.listPlaceholders t.pieces) := by
  obtain ⟨result, params, r, body, -, hp, hb, rfl⟩ := Func.lowerParts_ok.1 h
  have hr : Spends src r q f.losses
      (Target.Piece.listPlaceholders (Target.Stmt.listPieces body)) := by
    unfold Func.losses
    cases hf : f.body with
    | none =>
      rw [hf] at hb
      obtain ⟨rfl, rfl⟩ := Lowering.pure_ok.1 hb
      exact .refl rfl
    | some b =>
      rw [hf] at hb
      exact Block.lower_spends b hb
  rw [Target.Func.pieces, Target.Piece.listPlaceholders_cons,
    Target.Piece.listPlaceholders_append, Target.Piece.braced_placeholders,
    Target.Piece.placeholders_glue, Nat.zero_add]
  exact hr.congr (lowerParams_lost hp).symm rfl

/-- **Losses are complete and exact.** A function that is lowered, under either policy, records
the losses of its tree, in their order and no others. Each is recorded with the span of its call
and the source text there. The text has a placeholder for each call without a counterpart, and it
is an approximation just if something is lost. -/
theorem losses_exact {src : Source} {f : Func} {policy : ScopePolicy} {l : Func.Lowered}
    (h : f.lower src policy = .ok l) :
    l.lost.map (fun d => (d.loss, d.span)) = f.losses ∧
      (∀ d ∈ l.lost, src.slice? d.span = some d.quote) ∧
      l.text = Target.Piece.join l.func.pieces ∧
      Target.Piece.listPlaceholders l.func.pieces =
        (l.lost.filter fun d => d.loss = .unrecognizedCall).length ∧
      (l.isDegraded = true ↔ f.losses ≠ []) := by
  obtain ⟨q, hq, hl⟩ := Func.lower_ok.1 h
  obtain ⟨⟨ds, hd, hr⟩, hm⟩ := Func.lowerParts_spends hq
  have hd : l.lost = ds := by rw [hl, hd, List.nil_append]
  subst hd
  refine ⟨hr.spots, hr.quotes, l.func.text_eq_join, ?_, ?_⟩
  · rw [hm, ← hr.spots, unrecognized, List.countP_map, List.countP_eq_length_filter]
    rfl
  · rw [← hr.spots, ne_eq, List.map_eq_nil_iff, Func.Lowered.isDegraded]
    simp

/-- `for ; ; h() = g() { _ = errors.New(k(), 1) }`, as the body of a function. -/
def Func.lossy : Func :=
  let name (n : String) : Ident := ⟨n, .none⟩
  let call (n : String) (span : Span) : Expr := .call (.name (name n)) [] span
  let post : Stmt := .assign [call "h" ⟨8, 11⟩] .assign [call "g" ⟨14, 17⟩] .none
  let message : Expr := .call (.selector (.name (name "errors")) (name "New") .none)
    [call "k" ⟨35, 38⟩, .literal "1" .none] ⟨24, 42⟩
  { name := name "f", params := ⟨[], .none⟩, results := none, span := .none
    body := some <| .mk
      [ .loop none none (some post)
          (.mk [.assign [.name (name "_")] .assign [message] .none] .none) .none ] .none }

def Source.lossy : Source := ⟨"for ; ; h() = g() \x7b _ = errors.New(k(), 1) \x7d"⟩

/-- The right side is lost before the left, the last clause before the body, and the argument of a
message before the arguments that it drops. -/
theorem losses_exact_lossy :
    ∃ l, Func.lossy.lower .lossy .isolated = .ok l ∧
      l.lost.map (fun d => (d.loss, d.span)) =
        [ (.unrecognizedCall, ⟨14, 17⟩), (.unrecognizedCall, ⟨8, 11⟩),
          (.unrecognizedCall, ⟨35, 38⟩), (.droppedArguments 1, ⟨24, 42⟩) ] ∧
      Target.Piece.listPlaceholders l.func.pieces = 3 ∧ l.isDegraded = true := by
  have hk : (Func.lossy.lower .lossy .isolated).isOk = true := by decide +kernel
  cases h : Func.lossy.lower .lossy .isolated with
  | error e =>
    rw [h] at hk
    cases hk
  | ok l =>
    obtain ⟨hs, -, -, hm, hd⟩ := losses_exact h
    have hc := congrArg (List.countP fun spot => spot.1 = .unrecognizedCall) hs
    rw [List.countP_map, List.countP_eq_length_filter] at hc
    exact ⟨l, rfl, hs, hm.trans hc, hd.2 (by decide)⟩

end Recast
