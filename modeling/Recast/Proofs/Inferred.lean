import Recast.Proofs.Losses
import Recast.Proofs.Orders
import Recast.Proofs.Supported
import Recast.Proofs.Written

/-!
# Inferred types

A declaration whose type is `auto` needs an initializer to infer the type from. Those without one
are told by the tree alone: they are made of the specifications that have neither a type nor values
(`Func.lower_bare`). The grammar gives every `var` one of the two, but a `const` may have neither
and repeat the values of the one before it; what it declares is left bare
(`File.inferred_initialized_iff`).
-/

namespace Recast

open Target (Fragment)

namespace Target

/-! ## Fragments of a text -/

namespace Fragment

/-- A declaration whose type is `auto`. -/
def isInferred : Fragment → Bool
  | .bind .. => true
  | .declare _ type _ _ => type.isNone
  | .rebind .. | .discard _ | .assign .. | .step .. => false

/-- The value that a declaration gives to its name. -/
def initializer? : Fragment → Option Expr
  | .bind _ v => some v
  | .declare _ _ _ v => v
  | .rebind .. | .discard _ | .assign .. | .step .. => none

/-- A declaration with nothing to infer its type from. -/
def isBare (f : Fragment) : Bool := f.isInferred && f.initializer?.isNone

/-- The text ends with the initializer, if there is one. -/
theorem text_of_isInferred (f : Fragment) (h : f.isInferred = true) :
    ∃ start n, (start = "" ∨ start = "const ") ∧ f.declared? = some n ∧
      f.text = start ++ "auto " ++ n ++ f.initializer?.elim "" (" = " ++ ·.text) := by
  cases f with
  | bind n v => exact ⟨"", n, .inl rfl, rfl, by simp [text, initializer?, String.append_assoc]⟩
  | declare constant type n v =>
    obtain rfl : type = none := by simpa [isInferred] using h
    cases constant with
    | false => exact ⟨"", n, .inl rfl, rfl, by simp [text, initializer?]⟩
    | true => exact ⟨"const ", n, .inr rfl, rfl, by simp [text, initializer?, String.append_assoc]⟩
  | rebind | discard | assign | step => cases h

end Fragment

namespace Piece

def fragment? : Piece → Option Fragment
  | .fragment f => some f
  | .glue _ | .expr _ => none

/-- The fragments among pieces. -/
def fragments (ps : List Piece) : List Fragment := ps.filterMap fragment?

@[simp] theorem fragments_nil : fragments [] = [] := rfl

@[simp] theorem fragments_glue (t : String) (ps : List Piece) :
    fragments (.glue t :: ps) = fragments ps := rfl

@[simp] theorem fragments_expr (x : Expr) (ps : List Piece) :
    fragments (.expr x :: ps) = fragments ps := rfl

@[simp] theorem fragments_fragment (f : Fragment) (ps : List Piece) :
    fragments (.fragment f :: ps) = f :: fragments ps := rfl

@[simp] theorem fragments_append (ps qs : List Piece) :
    fragments (ps ++ qs) = fragments ps ++ fragments qs :=
  List.filterMap_append

@[simp] theorem fragments_lines (fs : List Fragment) : fragments (lines fs) = fs := by
  induction fs with
  | nil => rfl
  | cons f fs ih => exact congrArg (f :: ·) ih

theorem fragments_clause (fs : List Fragment) : fragments (clause fs) = fs := by
  induction fs with
  | nil => rfl
  | cons f fs ih =>
    cases fs with
    | nil => rfl
    | cons g fs => exact congrArg (f :: ·) ih

@[simp] theorem fragments_padded (fs : List Fragment) : fragments (padded fs) = fs := by
  cases fs with
  | nil => rfl
  | cons f fs => exact fragments_clause (f :: fs)

@[simp] theorem fragments_test (test : Option Expr) : fragments (Piece.test test) = [] := by
  cases test with
  | none => rfl
  | some x =>
    rw [Piece.test]
    split <;> rfl

@[simp] theorem fragments_braced (body : List Piece) :
    fragments (braced body) = fragments body := by
  simp [braced]

@[simp] theorem fragments_enclosed (fs : List Fragment) (inner : List Piece) :
    fragments (enclosed fs inner) = fs ++ fragments inner := by
  simp [enclosed]

@[simp] theorem fragments_conditional (test : Expr) (body other : List Piece) :
    fragments (conditional test body other) = fragments body ++ fragments other := by
  simp [conditional]

@[simp] theorem fragments_loop (init : List Piece) (test : Option Expr) (post : List Fragment)
    (body : List Piece) :
    fragments (loop init test post body) = fragments init ++ post ++ fragments body := by
  simp [loop]

end Piece

/-- The fragments of a conditional, in the order in which they are written. -/
theorem Stmt.fragments_cond (init : Option (List Fragment)) (test : Expr) (body : List Stmt)
    (other : Branch) :
    Piece.fragments (Stmt.cond init test body other).pieces =
      init.getD [] ++ Piece.fragments (Stmt.listPieces body) ++ Piece.fragments other.pieces := by
  cases init <;> simp [Stmt.pieces]

/-- A loop has its last clause before its body. -/
theorem Stmt.fragments_loop (init : List Fragment) (test : Option Expr) (post : List Fragment)
    (body : List Stmt) :
    Piece.fragments (Stmt.loop init test post body).pieces =
      init ++ post ++ Piece.fragments (Stmt.listPieces body) := by
  rcases init with _ | ⟨f, _ | ⟨g, fs⟩⟩ <;> simp [Stmt.pieces]

end Target

/-! ## Declarations left bare -/

/-- The names of a specification that has neither a type nor values. -/
def ValueSpec.bareNames (spec : ValueSpec) : List String :=
  if spec.type.isNone && spec.values.isEmpty then Ident.visible spec.names else []

/-- What is declared with neither a type nor a value. -/
def bareDeclare (kind : DeclKind) (n : String) : Fragment := .declare (kind = .const) none n none

/-- The declarations that a specification leaves bare. -/
def bareOf : Spec → List Fragment := fun (kind, spec) => spec.bareNames.map (bareDeclare kind)

/-- The names of a function that are declared with neither a type nor a value. -/
def Func.bareNames (f : Func) : List String := f.specs.flatMap fun (_, spec) => spec.bareNames

section Simple

variable {src : Source} {p q : Progress}

theorem lowerAssign_bare {op : Operator} {pairs : List (Expr × Expr)} {fs : List Fragment}
    (h : (lowerAssign src op pairs).runFrom p = (.ok fs, q)) : fs.filter Fragment.isBare = [] := by
  induction pairs generalizing p fs with
  | nil =>
    obtain ⟨rfl, -⟩ := Lowering.pure_ok.1 h
    rfl
  | cons pair pairs ih =>
    obtain ⟨f, r, gs, hf, hg, rfl⟩ := lowerAssign_cons_ok.1 h
    have hbare : f.isBare = false := by cases lowerPair_ok hf <;> rfl
    rw [List.filter_cons, hbare]
    exact ih hg

/-- What `:=` binds has the value on its right side. -/
theorem lowerBindings_bare {pairs : List (Ident × Expr)} {fs : List Fragment}
    (h : (lowerBindings src pairs).runFrom p = (.ok fs, q)) : fs.filter Fragment.isBare = [] := by
  induction pairs generalizing p fs with
  | nil =>
    obtain ⟨rfl, -⟩ := Lowering.pure_ok.1 h
    rfl
  | cons pair pairs ih =>
    obtain ⟨f, r, gs, hf, hg, rfl⟩ := lowerBindings_cons_ok.1 h
    have hbare : f.isBare = false := by cases lowerBinding_ok hf <;> rfl
    rw [List.filter_cons, hbare]
    exact ih hg

theorem lowerName_bare {kind : DeclKind} {type : Option Primitive} {x : Ident} {v : Option Expr}
    {fs : List Fragment} (h : (lowerName src kind type x v).runFrom p = (.ok fs, q)) :
    fs.filter Fragment.isBare =
      if type.isNone && v.isNone then (Ident.visible [x]).map (bareDeclare kind) else [] := by
  cases lowerName_ok h with
  | skip hb => simp [Ident.visible_of_blank hb]
  | discard => simp [Fragment.isBare, Fragment.isInferred]
  | @declare v value hb hd hv =>
    have hvalue : value.isNone = v.isNone := by
      cases v with
      | none =>
        obtain ⟨rfl, -⟩ := Lowering.mapM_none_ok.1 hv
        rfl
      | some v =>
        obtain ⟨y, -, rfl⟩ := Lowering.mapM_some_ok.1 hv
        rfl
    have hbare : (Fragment.declare (kind = .const) type x.name value).isBare
        = (type.isNone && v.isNone) := by rw [← hvalue]; rfl
    rw [Ident.visible_of_not_blank hb, List.filter_cons, hbare]
    split
    · rename_i hboth
      obtain ⟨htype, hv⟩ := Bool.and_eq_true_iff.1 hboth
      rw [← hvalue] at hv
      rw [Option.isNone_iff_eq_none.1 htype, Option.isNone_iff_eq_none.1 hv]
      rfl
    · rfl

/-- Without a type, the names are bare that no value is left for, which is all or none. -/
theorem lowerNames_bare {kind : DeclKind} {type : Option Primitive} {names : List Ident}
    {values : List Expr} {fs : List Fragment}
    (hl : values = [] ∨ values.length = names.length)
    (h : (lowerNames src kind type names values).runFrom p = (.ok fs, q)) :
    fs.filter Fragment.isBare =
      if type.isNone && values.isEmpty then (Ident.visible names).map (bareDeclare kind)
      else [] := by
  induction names generalizing p fs values with
  | nil =>
    obtain ⟨rfl, -⟩ := Lowering.pure_ok.1 h
    simp [Ident.visible]
  | cons x names ih =>
    obtain ⟨gs, r, hs, hg, hh, rfl⟩ := lowerNames_cons_ok.1 h
    rw [List.filter_append, lowerName_bare hg, Ident.visible_cons x names, List.map_append]
    cases values with
    | nil =>
      have hrest := ih (.inl rfl) hh
      cases type <;> simp [hrest]
    | cons v values =>
      have hl : values.length = names.length := Nat.succ.inj (hl.resolve_left (by simp))
      have hrest := ih (.inr hl) hh
      cases values with
      | nil =>
        obtain rfl := List.length_eq_zero_iff.1 hl.symm
        simp [hrest, Ident.visible]
      | cons w values => simp [hrest]

theorem ValueSpec.lower_bare {kind : DeclKind} {spec : ValueSpec} {fs : List Fragment}
    (h : (spec.lower src kind).runFrom p = (.ok fs, q)) :
    fs.filter Fragment.isBare = bareOf (kind, spec) := by
  obtain ⟨type, ht, hl, hn⟩ := ValueSpec.lower_ok.1 h
  have htype : type.isNone = spec.type.isNone := by
    cases hs : spec.type with
    | none =>
      rw [hs] at ht
      cases ht
      rfl
    | some t =>
      rw [hs] at ht
      obtain ⟨primitive, -, hp⟩ := except_bind_ok.1 ht
      cases hp
      rfl
  rw [lowerNames_bare hl hn, htype, bareOf, ValueSpec.bareNames]
  split <;> rfl

theorem lowerSpecs_bare {kind : DeclKind} {specs : List ValueSpec} {fs : List Fragment}
    (h : (lowerSpecs src kind specs).runFrom p = (.ok fs, q)) :
    fs.filter Fragment.isBare = (specs.map (kind, ·)).flatMap bareOf := by
  induction specs generalizing p fs with
  | nil =>
    obtain ⟨rfl, -⟩ := Lowering.pure_ok.1 h
    rfl
  | cons spec specs ih =>
    obtain ⟨gs, r, hs, hg, hh, rfl⟩ := lowerSpecs_cons_ok.1 h
    rw [List.filter_append, ValueSpec.lower_bare hg, ih hh, List.map_cons, List.flatMap_cons]

theorem Stmt.lowerSimple_bare {s : Stmt} {fs : List Fragment}
    (h : (s.lowerSimple src).runFrom p = (.ok fs, q)) :
    fs.filter Fragment.isBare = s.specs.flatMap bareOf := by
  cases Stmt.lowerSimple_ok h with
  | define _ _ _ h => exact lowerBindings_bare h
  | assign _ _ _ h => exact lowerAssign_bare h
  | decl h => exact lowerSpecs_bare h
  | step => rfl

theorem optionSimple_bare {s : Option Stmt} {fs : Option (List Fragment)}
    (h : (s.mapM (Stmt.lowerSimple src)).runFrom p = (.ok fs, q)) :
    (fs.getD []).filter Fragment.isBare = (Stmt.optionSpecs s).flatMap bareOf := by
  cases s with
  | none =>
    obtain ⟨rfl, -⟩ := Lowering.mapM_none_ok.1 h
    rfl
  | some s =>
    obtain ⟨fs, hf, rfl⟩ := Lowering.mapM_some_ok.1 h
    exact Stmt.lowerSimple_bare hf

end Simple

/-! ## Statements and blocks -/

section Blocks

open Target (Piece)

variable {src : Source}

mutual

theorem Stmt.lower_bare : ∀ (s : Stmt) {p q : Progress} {t : Target.Stmt},
    (s.lower src).runFrom p = (.ok t, q) →
    (Piece.fragments t.pieces).filter Fragment.isBare = s.specs.flatMap bareOf
  | .ret results span, p, q, t, h => by
    rcases Stmt.lower_ret_ok.1 h with ⟨-, rfl, -⟩ | ⟨v, x, -, -, rfl⟩
    · rfl
    · rfl
  | .assign lhs op rhs span, p, q, t, h | .decl kind specs span, p, q, t, h
  | .step operand op span, p, q, t, h => by
    obtain ⟨fs, hf, rfl⟩ := (Stmt.lower_simple_ok rfl).1 h
    rw [Target.Stmt.pieces, Piece.fragments_lines]
    exact Stmt.lowerSimple_bare hf
  | .cond init test body other span, p, q, t, h => by
    obtain ⟨init', p₁, test', p₂, body', p₃, other', p₄, hi, -, hb, ho, rfl, -⟩ :=
      Stmt.lower_cond_ok.1 h
    rw [Target.Stmt.fragments_cond, List.filter_append, List.filter_append, optionSimple_bare hi,
      Block.lower_bare body hb, Stmt.lowerOther_bare other ho, Stmt.specs, List.flatMap_append,
      List.flatMap_append]
  | .loop init test post body span, p, q, t, h => by
    obtain ⟨init', p₁, test', p₂, post', p₃, body', p₄, hi, -, hp, hb, rfl, -⟩ :=
      Stmt.lower_loop_ok.1 h
    rw [Target.Stmt.fragments_loop, List.filter_append, List.filter_append, optionSimple_bare hi,
      optionSimple_bare hp, Block.lower_bare body hb, Stmt.specs, List.flatMap_append,
      List.flatMap_append]
  | .block body, p, q, t, h => by
    obtain ⟨body', hb, rfl⟩ := Stmt.lower_block_ok.1 h
    rw [Target.Stmt.pieces, Piece.fragments_append, Piece.fragments_braced, Piece.fragments_glue,
      Piece.fragments_nil, List.append_nil, Stmt.specs]
    exact Block.lower_bare body hb
  | .unsupported span, p, q, t, h => absurd h Stmt.lower_unsupported_ok

theorem Stmt.lowerOther_bare : ∀ (other : Option Stmt) {p q : Progress} {b : Target.Branch},
    (Stmt.lowerOther src other).runFrom p = (.ok b, q) →
    (Piece.fragments b.pieces).filter Fragment.isBare = (Stmt.optionSpecs other).flatMap bareOf
  | none, p, q, b, h => by
    obtain ⟨rfl, -⟩ := Stmt.lowerOther_none_ok.1 h
    rfl
  | some (.block body), p, q, b, h => by
    obtain ⟨body', hb, rfl⟩ := Stmt.lowerOther_block_ok.1 h
    rw [Target.Branch.pieces, Piece.fragments_glue, Piece.fragments_braced]
    exact Block.lower_bare body hb
  | some (.cond none test body other span), p, q, b, h => by
    obtain ⟨test', p₁, body', p₂, other', -, hb, ho, rfl⟩ := Stmt.lowerOther_chain_ok.1 h
    rw [Target.Branch.pieces, Piece.fragments_glue, Piece.fragments_conditional,
      List.filter_append, Block.lower_bare body hb, Stmt.lowerOther_bare other ho,
      ← List.flatMap_append]
    rfl
  | some (.cond (some init) test body other span), p, q, b, h => by
    obtain ⟨init', p₁, test', p₂, body', p₃, other', p₄, hi, -, hb, ho, rfl, -⟩ :=
      Stmt.lowerOther_wrapped_ok.1 h
    rw [Target.Branch.pieces, Piece.fragments_glue, Piece.fragments_append,
      Piece.fragments_enclosed, Piece.fragments_conditional, Piece.fragments_glue,
      Piece.fragments_nil, List.append_nil, List.filter_append, List.filter_append,
      Stmt.lowerSimple_bare hi, Block.lower_bare body hb, Stmt.lowerOther_bare other ho,
      ← List.flatMap_append, ← List.flatMap_append, ← List.append_assoc]
    rfl
  | some (.ret ..), p, q, b, h | some (.assign ..), p, q, b, h | some (.decl ..), p, q, b, h
  | some (.step ..), p, q, b, h | some (.loop ..), p, q, b, h
  | some (.unsupported _), p, q, b, h => absurd h Lowering.reject_ok

theorem Stmt.lowerList_bare : ∀ (ss : List Stmt) {p q : Progress} {ts : List Target.Stmt},
    (Stmt.lowerList src ss).runFrom p = (.ok ts, q) →
    (Piece.fragments (Target.Stmt.listPieces ts)).filter Fragment.isBare =
      (Stmt.listSpecs ss).flatMap bareOf
  | [], p, q, ts, h => by
    obtain ⟨rfl, -⟩ := Stmt.lowerList_nil_ok.1 h
    rfl
  | s :: ss, p, q, ts, h => by
    obtain ⟨t, r, us, ht, hu, rfl⟩ := Stmt.lowerList_cons_ok.1 h
    rw [Target.Stmt.listPieces, Piece.fragments_append, List.filter_append, Stmt.lower_bare s ht,
      Stmt.lowerList_bare ss hu, Stmt.listSpecs, List.flatMap_append]

theorem Block.lower_bare : ∀ (b : Block) {p q : Progress} {ts : List Target.Stmt},
    (b.lower src).runFrom p = (.ok ts, q) →
    (Piece.fragments (Target.Stmt.listPieces ts)).filter Fragment.isBare =
      b.specs.flatMap bareOf
  | .mk ss span, p, q, ts, h => by
    obtain ⟨r, hr, -⟩ := Block.lower_ok.1 h
    exact Stmt.lowerList_bare ss hr

end

/-- The declarations without anything to infer their type from are those that the specifications
leave bare. -/
theorem Func.lower_bare {f : Func} {policy : ScopePolicy} {l : Func.Lowered}
    (h : f.lower src policy = .ok l) :
    (Piece.fragments l.func.pieces).filter Fragment.isBare = f.specs.flatMap bareOf := by
  obtain ⟨q, hq, -⟩ := Func.lower_ok.1 h
  obtain ⟨result, params, r, body, -, -, hb, hfunc⟩ := Func.lowerParts_ok.1 hq
  have hbody : (Piece.fragments (Target.Stmt.listPieces body)).filter Fragment.isBare
      = f.specs.flatMap bareOf := by
    unfold Func.specs
    cases hf : f.body with
    | none =>
      rw [hf] at hb
      obtain ⟨rfl, -⟩ := Lowering.pure_ok.1 hb
      rfl
    | some b =>
      rw [hf] at hb
      exact Block.lower_bare b hb
  rw [hfunc, Target.Func.pieces, Piece.fragments_glue, Piece.fragments_append,
    Piece.fragments_braced, Piece.fragments_glue, Piece.fragments_nil, List.append_nil]
  exact hbody

end Blocks

/-! ## Functions of a file -/

/-- A `var` that stands in a text leaves nothing bare. -/
theorem ValueSpec.Written.bareOf_eq {src : Source} {kind : DeclKind} {spec : ValueSpec}
    (h : spec.Written src kind) :
    bareOf (kind, spec) = spec.bareNames.map fun n => .declare true none n none := by
  cases kind with
  | const => rfl
  | var =>
    have hnone : spec.bareNames = [] := by
      rw [bareNames, if_neg]
      simpa [Decidable.imp_iff_not_or] using h.given rfl
    rw [bareOf, hnone]
    rfl

namespace File

/-- **Inferred types.** A declaration of a function of a file whose type is `auto` ends with its
initializer, if it has one. Those and only those have none that are made of a `const` with neither a
type nor values: each name of it that is not blank is declared so. All have one just if there is no
such name. -/
theorem inferred_initialized_iff {src : Source} {file : File} (hread : read src = .ok file)
    {f : Func} (hf : f ∈ file.funcs) {policy : ScopePolicy} {l : Func.Lowered}
    (h : f.lower src policy = .ok l) :
    l.text = Target.Piece.join l.func.pieces ∧
      (∀ g ∈ Target.Piece.fragments l.func.pieces, g.isInferred = true → ∃ start n,
        (start = "" ∨ start = "const ") ∧ g.declared? = some n ∧
        g.text = start ++ "auto " ++ n ++ g.initializer?.elim "" (" = " ++ ·.text)) ∧
      (Target.Piece.fragments l.func.pieces).filter Fragment.isBare =
        f.bareNames.map (fun n => .declare true none n none) ∧
      ((∀ g ∈ Target.Piece.fragments l.func.pieces, g.isInferred = true →
          ∃ v, g.initializer? = some v) ↔
        f.bareNames = []) := by
  have hbare : (Target.Piece.fragments l.func.pieces).filter Fragment.isBare
      = f.bareNames.map fun n => .declare true none n none := by
    rw [Func.lower_bare h, Func.bareNames, List.map_flatMap]
    exact List.flatMap_congr fun spec hspec =>
      ((funcs_written hread f hf).specs spec hspec).bareOf_eq
  refine ⟨l.func.text_eq_join, fun g _ hg => g.text_of_isInferred hg, hbare, ?_⟩
  rw [← List.map_eq_nil_iff (f := fun n => Fragment.declare true none n none), ← hbare,
    List.filter_eq_nil_iff]
  refine forall₂_congr fun g _ => ?_
  cases hi : g.initializer? <;> simp [Fragment.isBare, hi]

/-- Declarations of all forms, each with something to infer its type from. -/
def initialized : Source :=
  ⟨"func f() \x7b\n\tvar (\n\t\ta = 1\n\t\tb int\n\t)\n\tconst c = 2\n\td := a\n\x7d\n"⟩

theorem inferred_initialized_iff_initialized :
    ∃ file f l, read initialized = .ok file ∧ f ∈ file.funcs ∧
      f.lower initialized .chained = .ok l ∧ f.bareNames = [] ∧
      l.text =
        "void f() \x7b\nauto a = 1;\nlong long int b;\nconst auto c = 2;\nauto d = a;\n\x7d\n" ∧
      l.text = Target.Piece.join l.func.pieces ∧
      (∀ g ∈ Target.Piece.fragments l.func.pieces, g.isInferred = true → ∃ start n,
        (start = "" ∨ start = "const ") ∧ g.declared? = some n ∧
        g.text = start ++ "auto " ++ n ++ g.initializer?.elim "" (" = " ++ ·.text)) ∧
      (Target.Piece.fragments l.func.pieces).filter Fragment.isBare =
        f.bareNames.map (fun n => .declare true none n none) ∧
      ((∀ g ∈ Target.Piece.fragments l.func.pieces, g.isInferred = true →
          ∃ v, g.initializer? = some v) ↔
        f.bareNames = []) := by
  have hall : (read initialized).toOption.map (fun file => file.funcs.map fun f =>
      (f.bareNames, (f.lower initialized .chained).toOption.map Func.Lowered.text)) = some
        [([], some
          "void f() \x7b\nauto a = 1;\nlong long int b;\nconst auto c = 2;\nauto d = a;\n\x7d\n")] := by
    decide +kernel
  obtain ⟨file, hread, he⟩ := Option.map_eq_some_iff.1 hall
  obtain ⟨f, hfuncs, he⟩ := List.map_eq_singleton_iff.1 he
  obtain ⟨hnone, hlower⟩ := Prod.mk.inj he
  obtain ⟨l, hl, htext⟩ := Option.map_eq_some_iff.1 hlower
  have hread := eq_ok_of_toOption hread
  have hf : f ∈ file.funcs := hfuncs ▸ List.mem_singleton_self f
  have hl := eq_ok_of_toOption hl
  exact ⟨file, f, l, hread, hf, hl, hnone, htext, inferred_initialized_iff hread hf hl⟩

/-- The second constant repeats the value of the first. -/
def repeating : Source :=
  ⟨"func f() \x7b\n\tconst (\n\t\ta = 1\n\t\tb\n\t)\n\x7d\n"⟩

/-- A repeated value is lost: the declaration is left bare, and the function counts as exact. -/
theorem repeated_constant_left_bare :
    ∃ file f, read repeating = .ok file ∧ f ∈ file.funcs ∧ ∀ policy, ∃ l,
      f.lower repeating policy = .ok l ∧ l.isDegraded = false ∧
      l.text = "void f() \x7b\nconst auto a = 1;\nconst auto b;\n\x7d\n" ∧
      ¬ ∀ g ∈ Target.Piece.fragments l.func.pieces, g.isInferred = true →
        ∃ v, g.initializer? = some v := by
  let outcome (f : Func) (policy : ScopePolicy) :=
    (f.lower repeating policy).toOption.map fun l =>
      (l.isDegraded, l.text, (Target.Piece.fragments l.func.pieces).any Fragment.isBare)
  let expected : Option (Bool × String × Bool) :=
    some (false, "void f() \x7b\nconst auto a = 1;\nconst auto b;\n\x7d\n", true)
  have hall : ∀ policy, (read repeating).toOption.map
      (fun file => file.funcs.map fun f => outcome f policy) = some [expected] := by
    intro policy
    cases policy <;> decide +kernel
  obtain ⟨file, hread, he⟩ := Option.map_eq_some_iff.1 (hall .isolated)
  obtain ⟨f, hfuncs, -⟩ := List.map_eq_singleton_iff.1 he
  refine ⟨file, f, eq_ok_of_toOption hread, hfuncs ▸ List.mem_singleton_self f, fun policy => ?_⟩
  have hpolicy : outcome f policy = expected := by
    have h := hall policy
    rw [hread, Option.map_some, hfuncs] at h
    exact List.singleton_inj.1 (Option.some.inj h)
  obtain ⟨l, hl, he⟩ := Option.map_eq_some_iff.1 hpolicy
  simp only [Prod.mk.injEq] at he
  obtain ⟨hexact, htext, hbare⟩ := he
  refine ⟨l, eq_ok_of_toOption hl, hexact, htext, fun h => ?_⟩
  obtain ⟨g, hg, hbare⟩ := List.any_eq_true.1 hbare
  obtain ⟨hinferred, hnone⟩ := Bool.and_eq_true_iff.1 hbare
  obtain ⟨v, hv⟩ := h g hg hinferred
  rw [hv] at hnone
  cases hnone

end File

end Recast
