import Recast.Proofs.Matching
import Recast.Proofs.Names
import Recast.Proofs.Runs

/-!
# Functions as definitions

The text of a lowered function is a definition by itself: its brackets match, with the copied
literals taken as opaque, and its first brace is closed at its end. So the texts of any functions
can be put one after the other (`Func.Lowered.texts_standalone`). What a source passes on to a text
are its names and literals (`File.copies_of_read`); from these the induction follows the lowering,
with one rule for each layout.
-/

namespace Recast

open Nesting (start)
open Target (Fragment)

/-! ## Lowering -/

/-- A literal or a name that can be copied as it is. -/
def Expr.IsCopy : Expr → Prop
  | .literal t _ => (Target.Expr.literal t).Matched
  | .name x => Plain x.name
  | .binary .. | .unary .. | .paren .. | .call .. | .selector .. | .unsupported _ => True

/-- All that is copied of an expression. -/
def Expr.Copies (e : Expr) : Prop := ∀ p ∈ e.parts, p.IsCopy

/-- The names that specifications declare. -/
def PlainSpecs (specs : List Spec) : Prop := ∀ spec ∈ specs, ∀ x ∈ spec.2.names, Plain x.name

section Exprs

variable {src : Source}

mutual

theorem Expr.lower_matched : ∀ (e : Expr) {x : Target.Expr} {ds : List Degradation},
    e.Copies → e.lower src = ⟨.ok x, ds⟩ → x.Matched
  | .literal t span, x, ds, hc, h => by
    cases h
    exact hc _ (List.mem_singleton_self _)
  | .name n, x, ds, hc, h => by
    cases h
    exact Balanced.glue (hc (.name n) (List.mem_singleton_self _))
  | .selector e field span, x, ds, hc, h | .unsupported span, x, ds, hc, h => by cases h
  | .binary op l r span, x, ds, hc, h => by
    obtain ⟨l', ls, r', rs, hl, hr, rfl, rfl⟩ := Expr.lower_binary_ok.1 h
    obtain ⟨-, hc⟩ := List.forall_mem_cons.1 hc
    obtain ⟨hcl, hcr⟩ := List.forall_mem_append.1 hc
    have hleft : Balanced l'.quoted l'.text.toList := Expr.lower_matched l hcl hl
    have hblank : Plain " " := by decide
    exact (((hleft.join_glue hblank).join_glue op.plain_text).join_glue hblank).join
      (Expr.lower_matched r hcr hr)
  | .unary op e span, x, ds, hc, h => by
    obtain ⟨-, e', he, rfl⟩ := Expr.lower_unary_ok.1 h
    obtain ⟨-, hc⟩ := List.forall_mem_cons.1 hc
    exact Balanced.glue_join op.plain_text (Expr.lower_matched e hc he)
  | .paren e span, x, ds, hc, h => by
    obtain ⟨e', he, rfl⟩ := Expr.lower_paren_ok.1 h
    obtain ⟨-, hc⟩ := List.forall_mem_cons.1 hc
    exact Balanced.paren (Expr.lower_matched e hc he)
  | .call callee args span, x, ds, hc, h => by
    obtain ⟨-, hc⟩ := List.forall_mem_cons.1 hc
    rw [Expr.lower] at h
    split at h
    · exact Expr.lowerMessage_matched args (List.forall_mem_append.1 hc).2 h
    · obtain ⟨t, -, rfl, -⟩ := Expr.placeholder_ok.1 h
      exact Balanced.glue (by decide)

theorem Expr.lowerMessage_matched : ∀ (args : List Expr) {span : Span} {x : Target.Expr}
    {ds : List Degradation}, (∀ p ∈ Expr.partsList args, p.IsCopy) →
    Expr.lowerMessage src span args = ⟨.ok x, ds⟩ → x.Matched
  | [], span, x, ds, hc, h => by cases h
  | first :: rest, span, x, ds, hc, h => by
    obtain ⟨_, _, x', xs, ys, ⟨⟩, hx, -, rfl, -⟩ := Expr.lowerMessage_ok.1 h
    have hfirst := Balanced.paren (Expr.lower_matched first (List.forall_mem_append.1 hc).1 hx)
    have hall := hfirst.glue_join (by decide : Plain "QString")
    simpa [Target.Expr.Matched, Target.Expr.text, Target.Expr.quoted, String.append_assoc]
      using hall

end

end Exprs

section Simple

variable {src : Source} {p q : Progress}

theorem Lowering.expr_matched {e : Expr} {x : Target.Expr} (hc : e.Copies)
    (h : (Lowering.expr src e).runFrom p = (.ok x, q)) : x.Matched := by
  obtain ⟨ds, he, -⟩ := Lowering.expr_ok.1 h
  exact e.lower_matched hc he

theorem Lowering.optionExpr_matched {e : Option Expr} {x : Option Target.Expr}
    (hc : ∀ a ∈ e, a.Copies) (h : (e.mapM (Lowering.expr src)).runFrom p = (.ok x, q)) :
    ∀ y ∈ x, y.Matched := by
  cases e with
  | none =>
    obtain ⟨rfl, -⟩ := Lowering.mapM_none_ok.1 h
    exact fun y hy => nomatch hy
  | some e =>
    obtain ⟨y, hy, rfl⟩ := Lowering.mapM_some_ok.1 h
    rintro _ ⟨⟩
    exact Lowering.expr_matched (hc e rfl) hy

theorem lowerPair_matched {op : Operator} {lhs rhs : Expr} {f : Fragment} (hl : lhs.Copies)
    (hr : rhs.Copies) (h : (lowerPair src op lhs rhs).runFrom p = (.ok f, q)) : f.Matched := by
  cases lowerPair_ok h with
  | discard hb hv => exact Fragment.matched_discard (Lowering.expr_matched hr hv)
  | assign hb hv ht =>
    exact Fragment.matched_assign op (Lowering.expr_matched hl ht) (Lowering.expr_matched hr hv)

theorem lowerAssign_matched {op : Operator} {pairs : List (Expr × Expr)} {fs : List Fragment}
    (hc : ∀ pair ∈ pairs, pair.1.Copies ∧ pair.2.Copies)
    (h : (lowerAssign src op pairs).runFrom p = (.ok fs, q)) : ∀ f ∈ fs, f.Matched := by
  induction pairs generalizing p fs with
  | nil =>
    obtain ⟨rfl, -⟩ := Lowering.pure_ok.1 h
    exact List.forall_mem_nil _
  | cons pair pairs ih =>
    obtain ⟨⟨hl, hr⟩, hpairs⟩ := List.forall_mem_cons.1 hc
    obtain ⟨f, r, gs, hf, hg, rfl⟩ := lowerAssign_cons_ok.1 h
    exact List.forall_mem_cons.2 ⟨lowerPair_matched hl hr hf, ih hpairs hg⟩

theorem lowerBinding_matched {x : Ident} {rhs : Expr} {f : Fragment} (hx : Plain x.name)
    (hr : rhs.Copies) (h : (lowerBinding src x rhs).runFrom p = (.ok f, q)) : f.Matched := by
  cases lowerBinding_ok h with
  | discard hb hv => exact Fragment.matched_discard (Lowering.expr_matched hr hv)
  | rebind hb hd hv => exact Fragment.matched_rebind hx (Lowering.expr_matched hr hv)
  | bind hb hd hv => exact Fragment.matched_bind hx (Lowering.expr_matched hr hv)

theorem lowerBindings_matched {pairs : List (Ident × Expr)} {fs : List Fragment}
    (hc : ∀ pair ∈ pairs, Plain pair.1.name ∧ pair.2.Copies)
    (h : (lowerBindings src pairs).runFrom p = (.ok fs, q)) : ∀ f ∈ fs, f.Matched := by
  induction pairs generalizing p fs with
  | nil =>
    obtain ⟨rfl, -⟩ := Lowering.pure_ok.1 h
    exact List.forall_mem_nil _
  | cons pair pairs ih =>
    obtain ⟨⟨hx, hr⟩, hpairs⟩ := List.forall_mem_cons.1 hc
    obtain ⟨f, r, gs, hf, hg, rfl⟩ := lowerBindings_cons_ok.1 h
    exact List.forall_mem_cons.2 ⟨lowerBinding_matched hx hr hf, ih hpairs hg⟩

theorem lowerName_matched {kind : DeclKind} {type : Option Primitive} {x : Ident}
    {v : Option Expr} {fs : List Fragment} (hx : Plain x.name) (hv : ∀ e ∈ v, e.Copies)
    (h : (lowerName src kind type x v).runFrom p = (.ok fs, q)) : ∀ f ∈ fs, f.Matched := by
  cases lowerName_ok h with
  | skip => exact List.forall_mem_nil _
  | discard hb hd =>
    exact List.forall_mem_singleton.2
      (Fragment.matched_discard (Lowering.expr_matched (hv _ rfl) hd))
  | declare hb hd hd' =>
    exact List.forall_mem_singleton.2
      (Fragment.matched_declare hx (Lowering.optionExpr_matched hv hd'))

theorem lowerNames_matched {kind : DeclKind} {type : Option Primitive} {names : List Ident}
    {values : List Expr} {fs : List Fragment} (hn : ∀ x ∈ names, Plain x.name)
    (hv : ∀ e ∈ values, e.Copies)
    (h : (lowerNames src kind type names values).runFrom p = (.ok fs, q)) :
    ∀ f ∈ fs, f.Matched := by
  induction names generalizing p fs values with
  | nil =>
    obtain ⟨rfl, -⟩ := Lowering.pure_ok.1 h
    exact List.forall_mem_nil _
  | cons x names ih =>
    obtain ⟨hx, hnames⟩ := List.forall_mem_cons.1 hn
    obtain ⟨gs, r, hs, hg, hh, rfl⟩ := lowerNames_cons_ok.1 h
    have hhead : ∀ e ∈ values.head?, e.Copies := fun e he => hv e (List.mem_of_mem_head? he)
    have htail : ∀ e ∈ values.tail, e.Copies := fun e he => hv e (List.mem_of_mem_tail he)
    exact List.forall_mem_append.2 ⟨lowerName_matched hx hhead hg, ih hnames htail hh⟩

theorem lowerSpecs_matched {kind : DeclKind} {specs : List ValueSpec} {fs : List Fragment}
    (hc : ∀ e ∈ specs.flatMap ValueSpec.values, e.Copies) (hn : PlainSpecs (specs.map (kind, ·)))
    (h : (lowerSpecs src kind specs).runFrom p = (.ok fs, q)) : ∀ f ∈ fs, f.Matched := by
  induction specs generalizing p fs with
  | nil =>
    obtain ⟨rfl, -⟩ := Lowering.pure_ok.1 h
    exact List.forall_mem_nil _
  | cons spec specs ih =>
    obtain ⟨hvalues, hc⟩ := List.forall_mem_append.1 hc
    obtain ⟨hnames, hn⟩ := List.forall_mem_cons.1 hn
    obtain ⟨gs, r, hs, hg, hh, rfl⟩ := lowerSpecs_cons_ok.1 h
    obtain ⟨type, -, -, hg⟩ := ValueSpec.lower_ok.1 hg
    exact List.forall_mem_append.2 ⟨lowerNames_matched hnames hvalues hg, ih hc hn hh⟩

theorem Stmt.lowerSimple_matched {s : Stmt} {fs : List Fragment} (hc : ∀ e ∈ s.exprs, e.Copies)
    (hn : PlainSpecs s.specs) (h : (s.lowerSimple src).runFrom p = (.ok fs, q)) :
    ∀ f ∈ fs, f.Matched := by
  cases Stmt.lowerSimple_ok h with
  | define hl hnames hr h =>
    obtain ⟨hlhs, hrhs⟩ := List.forall_mem_append.1 hc
    refine lowerBindings_matched (fun pair hpair => ?_) h
    obtain ⟨hx, he⟩ := List.of_mem_zip hpair
    rw [Expr.names_eq hnames] at hx
    obtain ⟨e, hmem, hname⟩ := List.mem_filterMap.1 hx
    refine ⟨?_, hrhs _ he⟩
    cases e with
    | name x =>
      cases hname
      exact hlhs _ hmem _ (List.mem_singleton_self _)
    | literal | binary | unary | paren | call | selector | unsupported => cases hname
  | assign hl ho hd h =>
    obtain ⟨hlhs, hrhs⟩ := List.forall_mem_append.1 hc
    refine lowerAssign_matched (fun pair hpair => ?_) h
    obtain ⟨hl, hr⟩ := List.of_mem_zip hpair
    exact ⟨hlhs _ hl, hrhs _ hr⟩
  | decl h => exact lowerSpecs_matched hc hn h
  | step hx =>
    exact List.forall_mem_singleton.2
      (Fragment.matched_step _ (Lowering.expr_matched (hc _ (List.mem_singleton_self _)) hx))

theorem optionSimple_matched {s : Option Stmt} {fs : Option (List Fragment)}
    (hc : ∀ e ∈ Stmt.optionExprs s, e.Copies) (hn : PlainSpecs (Stmt.optionSpecs s))
    (h : (s.mapM (Stmt.lowerSimple src)).runFrom p = (.ok fs, q)) :
    ∀ f ∈ fs.getD [], f.Matched := by
  cases s with
  | none =>
    obtain ⟨rfl, -⟩ := Lowering.mapM_none_ok.1 h
    exact List.forall_mem_nil _
  | some s =>
    obtain ⟨fs, hf, rfl⟩ := Lowering.mapM_some_ok.1 h
    exact Stmt.lowerSimple_matched hc hn hf

end Simple

/-! ### Statements and blocks -/

section Blocks

open Target (Piece)

variable {src : Source}

mutual

theorem Stmt.lower_matched : ∀ (s : Stmt) {p q : Progress} {t : Target.Stmt},
    (∀ e ∈ s.exprs, e.Copies) → PlainSpecs s.specs →
    (s.lower src).runFrom p = (.ok t, q) → Piece.Matched t.pieces
  | .ret results span, p, q, t, hc, hn, h => by
    rcases Stmt.lower_ret_ok.1 h with ⟨-, rfl, -⟩ | ⟨v, x, rfl, hx, rfl⟩
    · exact Target.Stmt.matched_ret fun x hx => nomatch hx
    · have hv := Lowering.expr_matched (hc v (List.mem_singleton_self _)) hx
      exact Target.Stmt.matched_ret fun y hy => Option.mem_some.1 hy ▸ hv
  | .assign lhs op rhs span, p, q, t, hc, hn, h | .decl kind specs span, p, q, t, hc, hn, h
  | .step operand op span, p, q, t, hc, hn, h => by
    obtain ⟨fs, hf, rfl⟩ := (Stmt.lower_simple_ok rfl).1 h
    exact Piece.matched_lines (Stmt.lowerSimple_matched hc hn hf)
  | .cond init test body other span, p, q, t, hc, hn, h => by
    obtain ⟨init', p₁, test', p₂, body', p₃, other', p₄, hi, ht, hb, ho, rfl, -⟩ :=
      Stmt.lower_cond_ok.1 h
    simp only [Stmt.exprs, List.forall_mem_append, List.forall_mem_cons] at hc
    simp only [PlainSpecs, Stmt.specs, List.forall_mem_append] at hn
    obtain ⟨hci, hct, hcb, hco⟩ := hc
    obtain ⟨⟨hni, hnb⟩, hno⟩ := hn
    exact Target.Stmt.matched_cond (optionSimple_matched hci hni hi)
      (Lowering.expr_matched hct ht) (Block.lower_matched body hcb hnb hb)
      (Stmt.lowerOther_matched other hco hno ho)
  | .loop init test post body span, p, q, t, hc, hn, h => by
    obtain ⟨init', p₁, test', p₂, post', p₃, body', p₄, hi, ht, hp, hb, rfl, -⟩ :=
      Stmt.lower_loop_ok.1 h
    simp only [Stmt.exprs, List.forall_mem_append, Option.mem_toList] at hc
    simp only [PlainSpecs, Stmt.specs, List.forall_mem_append] at hn
    obtain ⟨⟨⟨hci, hct⟩, hcp⟩, hcb⟩ := hc
    obtain ⟨⟨hni, hnp⟩, hnb⟩ := hn
    exact Target.Stmt.matched_loop (optionSimple_matched hci hni hi)
      (Lowering.optionExpr_matched hct ht) (optionSimple_matched hcp hnp hp)
      (Block.lower_matched body hcb hnb hb)
  | .block body, p, q, t, hc, hn, h => by
    obtain ⟨body', hb, rfl⟩ := Stmt.lower_block_ok.1 h
    exact (Piece.matched_braced (Block.lower_matched body hc hn hb)).append (.glue (by decide))
  | .unsupported span, p, q, t, hc, hn, h => absurd h Stmt.lower_unsupported_ok

theorem Stmt.lowerOther_matched : ∀ (other : Option Stmt) {p q : Progress} {b : Target.Branch},
    (∀ e ∈ Stmt.optionExprs other, e.Copies) → PlainSpecs (Stmt.optionSpecs other) →
    (Stmt.lowerOther src other).runFrom p = (.ok b, q) → Piece.Matched b.pieces
  | none, p, q, b, hc, hn, h => by
    obtain ⟨rfl, -⟩ := Stmt.lowerOther_none_ok.1 h
    exact .nil
  | some (.block body), p, q, b, hc, hn, h => by
    obtain ⟨body', hb, rfl⟩ := Stmt.lowerOther_block_ok.1 h
    exact (Piece.Matched.glue (by decide)).append
      (Piece.matched_braced (Block.lower_matched body hc hn hb))
  | some (.cond none test body other span), p, q, b, hc, hn, h => by
    obtain ⟨test', p₁, body', p₂, other', ht, hb, ho, rfl⟩ := Stmt.lowerOther_chain_ok.1 h
    simp only [Stmt.optionExprs, Stmt.exprs, List.forall_mem_append, List.forall_mem_cons] at hc
    simp only [PlainSpecs, Stmt.optionSpecs, Stmt.specs, List.forall_mem_append] at hn
    obtain ⟨-, hct, hcb, hco⟩ := hc
    obtain ⟨⟨-, hnb⟩, hno⟩ := hn
    exact (Piece.Matched.glue (by decide)).append (Piece.matched_conditional
      (Lowering.expr_matched hct ht) (Block.lower_matched body hcb hnb hb)
      (Stmt.lowerOther_matched other hco hno ho))
  | some (.cond (some init) test body other span), p, q, b, hc, hn, h => by
    obtain ⟨init', p₁, test', p₂, body', p₃, other', p₄, hi, ht, hb, ho, rfl, -⟩ :=
      Stmt.lowerOther_wrapped_ok.1 h
    simp only [Stmt.optionExprs, Stmt.exprs, List.forall_mem_append, List.forall_mem_cons] at hc
    simp only [PlainSpecs, Stmt.optionSpecs, Stmt.specs, List.forall_mem_append] at hn
    obtain ⟨hci, hct, hcb, hco⟩ := hc
    obtain ⟨⟨hni, hnb⟩, hno⟩ := hn
    exact Target.Branch.matched_wrapped (Stmt.lowerSimple_matched hci hni hi)
      (Lowering.expr_matched hct ht) (Block.lower_matched body hcb hnb hb)
      (Stmt.lowerOther_matched other hco hno ho)
  | some (.ret ..), p, q, b, hc, hn, h | some (.assign ..), p, q, b, hc, hn, h
  | some (.decl ..), p, q, b, hc, hn, h | some (.step ..), p, q, b, hc, hn, h
  | some (.loop ..), p, q, b, hc, hn, h | some (.unsupported _), p, q, b, hc, hn, h =>
    absurd h Lowering.reject_ok

theorem Stmt.lowerList_matched : ∀ (ss : List Stmt) {p q : Progress} {ts : List Target.Stmt},
    (∀ e ∈ Stmt.listExprs ss, e.Copies) → PlainSpecs (Stmt.listSpecs ss) →
    (Stmt.lowerList src ss).runFrom p = (.ok ts, q) → Piece.Matched (Target.Stmt.listPieces ts)
  | [], p, q, ts, hc, hn, h => by
    obtain ⟨rfl, -⟩ := Stmt.lowerList_nil_ok.1 h
    exact .nil
  | s :: ss, p, q, ts, hc, hn, h => by
    obtain ⟨t, r, us, ht, hu, rfl⟩ := Stmt.lowerList_cons_ok.1 h
    obtain ⟨hcs, hcss⟩ := List.forall_mem_append.1 hc
    obtain ⟨hns, hnss⟩ := List.forall_mem_append.1 hn
    exact (Stmt.lower_matched s hcs hns ht).append (Stmt.lowerList_matched ss hcss hnss hu)

theorem Block.lower_matched : ∀ (b : Block) {p q : Progress} {ts : List Target.Stmt},
    (∀ e ∈ b.exprs, e.Copies) → PlainSpecs b.specs →
    (b.lower src).runFrom p = (.ok ts, q) → Piece.Matched (Target.Stmt.listPieces ts)
  | .mk ss span, p, q, ts, hc, hn, h => by
    obtain ⟨r, hr, -⟩ := Block.lower_ok.1 h
    exact Stmt.lowerList_matched ss hc hn hr

end

end Blocks

/-! ### Functions -/

section Functions

variable {src : Source} {p q : Progress} {params : List (Primitive × String)}

theorem lowerParamNames_onLine {type : Primitive} {names : List Ident}
    (hn : ∀ x ∈ names, OnLine x.name)
    (h : (lowerParamNames type names).runFrom p = (.ok params, q)) :
    ∀ param ∈ params, OnLine param.2 := by
  induction names generalizing p params with
  | nil =>
    obtain ⟨rfl, -⟩ := Lowering.pure_ok.1 h
    exact List.forall_mem_nil _
  | cons x names ih =>
    obtain ⟨hx, hnames⟩ := List.forall_mem_cons.1 hn
    obtain ⟨s, rest, -, hr, rfl⟩ := lowerParamNames_cons_ok.1 h
    exact List.forall_mem_cons.2 ⟨hx, ih hnames hr⟩

theorem lowerParams_onLine {fields : List Field}
    (hn : ∀ field ∈ fields, ∀ x ∈ field.names, OnLine x.name)
    (h : (lowerParams src fields).runFrom p = (.ok params, q)) :
    ∀ param ∈ params, OnLine param.2 := by
  induction fields generalizing p params with
  | nil =>
    obtain ⟨rfl, -⟩ := Lowering.pure_ok.1 h
    exact List.forall_mem_nil _
  | cons field fields ih =>
    obtain ⟨hfield, hfields⟩ := List.forall_mem_cons.1 hn
    obtain ⟨ps, r, qs, hp, hq, rfl⟩ := lowerParams_cons_ok.1 h
    obtain ⟨type, -, -, hp⟩ := Field.lowerParam_ok.1 hp
    exact List.forall_mem_append.2 ⟨lowerParamNames_onLine hfield hp, ih hfields hq⟩

end Functions

/-! ## Functions of a file -/

namespace File

variable {src : Source} {file : File}

/-- The names and the literals in a file that is read can be copied as they are. -/
theorem copies_of_read (h : read src = .ok file) {e : Expr} (he : e ∈ file.exprs) :
    e.Copies := by
  intro p hp
  obtain ⟨us, hus, hm⟩ := madeOf_of_read h he hp
  cases hm with
  | literal =>
    obtain ⟨piece, hmeasured, hkind, -⟩ := hus.head.lexeme
    obtain rfl := Lexeme.eq_of_kindOf?_literal hkind
    have hall := hmeasured.balanced rfl
    rwa [String.ofList_toList] at hall
  | name =>
    have hwritten : Ident.Written src ⟨_, _⟩ := ⟨_, hus.head.lexeme⟩
    exact (OnLine.of_isName hwritten.isName).plain
  | binary | unary | receive | paren | selector | call | unsupported => trivial

theorem plainSpecs_of_read (h : read src = .ok file) : PlainSpecs file.specs := by
  intro spec hspec x hx
  rcases (specs_written h spec hspec).words x hx with hw | ⟨-, hcomma⟩
  · exact (OnLine.of_isName hw.isName).plain
  · rw [hcomma]
    decide

/-- A function of a file that is read becomes a definition by itself. -/
theorem text_standalone (h : read src = .ok file) {f : Func} (hf : f ∈ file.funcs)
    {policy : ScopePolicy} {l : Func.Lowered} (hl : f.lower src policy = .ok l) :
    Standalone l.func.quoted l.func.head.toList l.text.toList := by
  obtain ⟨q, hq, -⟩ := Func.lower_ok.1 hl
  obtain ⟨result, params, r, body, -, hp, hb, hfunc⟩ := Func.lowerParts_ok.1 hq
  have hwritten := funcs_written h f hf
  have hparams := lowerParams_onLine
    (fun field hfield x hx => OnLine.of_isName ((hwritten.params field hfield).names x hx).isName)
    hp
  have hbody : Target.Piece.Matched (Target.Stmt.listPieces body) := by
    cases hblock : f.body with
    | none =>
      rw [hblock] at hb
      obtain ⟨rfl, -⟩ := Lowering.pure_ok.1 hb
      exact .nil
    | some b =>
      rw [hblock] at hb
      refine Block.lower_matched b (fun e he => copies_of_read h ?_) (fun spec hspec => ?_) hb
      · exact List.mem_flatMap.2 ⟨f, hf, List.mem_flatMap.2 ⟨b, by simp [hblock], he⟩⟩
      · refine plainSpecs_of_read h spec (List.mem_flatMap.2 ⟨f, hf, ?_⟩)
        rwa [Func.specs, hblock]
  rw [Func.Lowered.text, hfunc]
  exact Target.Func.standalone (OnLine.of_isName hwritten.name.isName) hparams hbody

end File

/-- A function that was lowered from a file that is read. -/
def Func.Lowered.OfFile (l : Func.Lowered) : Prop :=
  ∃ src file f policy, File.read src = .ok file ∧ f ∈ file.funcs ∧ f.lower src policy = .ok l

/-- **Texts of functions are definitions.** The text of a function of a file, lowered under either
policy, is balanced, with the literals between quotes that were copied taken as opaque: its brackets
are closed in order, a line break follows each brace that opens, the last two characters are a
closing brace and a line break, and a brace is open everywhere but in the head of the function and
after that last brace. So the texts of any functions, of one file or of several, can be put one
after the other: they are the definitions of the whole. -/
theorem Func.Lowered.texts_standalone {ls : List Func.Lowered} (h : ∀ l ∈ ls, l.OfFile) :
    (∀ l ∈ ls, Standalone l.func.quoted l.func.head.toList l.text.toList) ∧
      start.definitions (String.join (ls.map Func.Lowered.text)).toList =
        ls.map fun l => l.text.toList := by
  have hall : ∀ l ∈ ls, Standalone l.func.quoted l.func.head.toList l.text.toList := by
    intro l hl
    obtain ⟨src, file, f, policy, hread, hf, hlower⟩ := h l hl
    exact File.text_standalone hread hf hlower
  refine ⟨hall, ?_⟩
  have hjoin : (String.join (ls.map Func.Lowered.text)).toList
      = (ls.map fun l => l.text.toList).flatten := by
    rw [String.toList_join, List.flatMap_map]
    rfl
  rw [hjoin]
  refine Standalone.definitions_flatten (List.forall_mem_map.2 fun l hl => ?_)
  exact ⟨_, _, hall l hl⟩

/-- Brackets and quotes in literals of all kinds, and a header below an `else`. -/
def Source.bracketed : Source :=
  ⟨"func f() rune \x7b\n\tif a := '\x7b'; a > '\"' \x7b\n"
    ++ "\t\x7d else if b := `\x7d\\`; b > \"\\\"(\" \x7b\n\t\x7d\n\treturn '\\''\n\x7d\n"⟩

/-- A loop with two fragments in its header. -/
def Source.counting : Source :=
  ⟨"func g() \x7b\n\tfor i, j := 0, 1; i < 2; i++ \x7b\n\t\t_ = (j)\n\t\x7d\n\x7d\n"⟩

theorem Func.Lowered.texts_standalone_bracketed :
    ∃ l m : Func.Lowered, (∀ k ∈ [l, m], k.OfFile) ∧
      l.text = "QChar f() \x7b\n\x7b\nauto a = '\x7b';\nif(a > '\"') \x7b\n\x7d else \x7b\n\x7b\n"
        ++ "auto b = `\x7d\\`;\nif(b > \"\\\"(\") \x7b\n\x7d\n\x7d\n\x7d\n\x7d\n"
        ++ "return '\\'';\n\x7d\n" ∧
      l.func.quoted = ["'\x7b'", "'\"'", "`\x7d\\`", "\"\\\"(\"", "'\\''"] ∧
      m.text = "void g() \x7b\n\x7b\nauto i = 0;\nauto j = 1;\n"
        ++ "for(; i < 2; i++) \x7b\n(void)((j));\n\x7d\n\x7d\n\x7d\n" ∧
      (∀ k ∈ [l, m], Standalone k.func.quoted k.func.head.toList k.text.toList) ∧
      start.definitions (String.join ([l, m].map Func.Lowered.text)).toList =
        [l, m].map fun k => k.text.toList := by
  have hf : (File.read .bracketed).toOption.map (fun file => file.funcs.map fun f =>
      (f.lower .bracketed .chained).toOption.map fun l => (l.text, l.func.quoted)) = some
        [some ("QChar f() \x7b\n\x7b\nauto a = '\x7b';\nif(a > '\"') \x7b\n\x7d else \x7b\n\x7b\n"
            ++ "auto b = `\x7d\\`;\nif(b > \"\\\"(\") \x7b\n\x7d\n\x7d\n\x7d\n\x7d\n"
            ++ "return '\\'';\n\x7d\n",
          ["'\x7b'", "'\"'", "`\x7d\\`", "\"\\\"(\"", "'\\''"])] := by
    decide +kernel
  have hg : (File.read .counting).toOption.map (fun file => file.funcs.map fun g =>
      (g.lower .counting .isolated).toOption.map Func.Lowered.text) = some
        [some ("void g() \x7b\n\x7b\nauto i = 0;\nauto j = 1;\n"
          ++ "for(; i < 2; i++) \x7b\n(void)((j));\n\x7d\n\x7d\n\x7d\n")] := by
    decide +kernel
  obtain ⟨file, hread, hfuncs⟩ := Option.map_eq_some_iff.1 hf
  obtain ⟨f, hsingle, hlower⟩ := List.map_eq_singleton_iff.1 hfuncs
  obtain ⟨l, hl, htexts⟩ := Option.map_eq_some_iff.1 hlower
  obtain ⟨htext, hquoted⟩ := Prod.mk.inj htexts
  obtain ⟨file', hread', hfuncs'⟩ := Option.map_eq_some_iff.1 hg
  obtain ⟨g, hsingle', hlower'⟩ := List.map_eq_singleton_iff.1 hfuncs'
  obtain ⟨m, hm, htext'⟩ := Option.map_eq_some_iff.1 hlower'
  have hmade : ∀ k ∈ [l, m], k.OfFile := by
    rw [List.forall_mem_cons, List.forall_mem_singleton]
    exact ⟨⟨_, file, f, _, eq_ok_of_toOption hread, hsingle ▸ List.mem_singleton_self f,
        eq_ok_of_toOption hl⟩,
      ⟨_, file', g, _, eq_ok_of_toOption hread', hsingle' ▸ List.mem_singleton_self g,
        eq_ok_of_toOption hm⟩⟩
  exact ⟨l, m, hmade, htext, hquoted, htext', Func.Lowered.texts_standalone hmade⟩

end Recast
