import Recast.Proofs.Trace
import Mathlib.Data.List.Forall2

/-!
# What a level declares

A run adds to the scope of a level exactly the names that it writes declarations for, each of them
once (`Scope.Grows`). A level starts without names, so when it is left its scope holds the names
that the text declares in it and no others, and none of them is declared twice
(`levels_declare_once`). What happens at levels further inside leaves the scope as it was.
-/

namespace Recast

open Target (Fragment)

/-- The names that fragments declare, in order. -/
def Target.Fragment.names (fs : List Fragment) : List String := fs.filterMap Fragment.declared?

@[simp] theorem Target.Fragment.names_nil : Fragment.names [] = [] := rfl

@[simp] theorem Target.Fragment.names_append (fs gs : List Fragment) :
    Fragment.names (fs ++ gs) = Fragment.names fs ++ Fragment.names gs :=
  List.filterMap_append

/-! ## Growing a scope -/

/-- `t` is `s` after the declaration of some names, one after the other. -/
structure Scope.Grows (s t : Scope) (names : List String) : Prop where
  eq : t = { s with here := names.reverse ++ s.here }
  nodup : names.Nodup
  notBlank : "_" ∉ names
  fresh : ∀ n ∈ names, n ∉ s.here

namespace Scope

theorem isDeclaredHere_iff {s : Scope} {n : String} : s.isDeclaredHere n = true ↔ n ∈ s.here :=
  List.contains_iff_mem

theorem isDeclaredHere_eq_false {s : Scope} {n : String} :
    s.isDeclaredHere n = false ↔ n ∉ s.here := by
  rw [← isDeclaredHere_iff, Bool.not_eq_true]

/-- What cannot be seen is not declared at the current level. -/
theorem not_mem_here_of_isDeclared {s : Scope} {n : String} (h : s.isDeclared n = false) :
    n ∉ s.here := by
  rw [← isDeclaredHere_eq_false]
  exact (Bool.or_eq_false_iff.1 h).1

namespace Grows

theorem refl (s : Scope) : s.Grows s [] := ⟨rfl, List.nodup_nil, List.not_mem_nil, by simp⟩

theorem trans {s t u : Scope} {ms ns : List String} (h : s.Grows t ms) (k : t.Grows u ns) :
    s.Grows u (ms ++ ns) := by
  obtain ⟨rfl, hm, hmb, hmf⟩ := h
  obtain ⟨rfl, hn, hnb, hnf⟩ := k
  simp only [List.mem_append, List.mem_reverse, not_or] at hnf
  refine ⟨by simp, ?_, ?_, ?_⟩
  · exact List.nodup_append.2 ⟨hm, hn, fun a ha b hb e => (hnf b hb).1 (e ▸ ha)⟩
  · rw [List.mem_append]
    exact fun h => h.elim hmb hnb
  · intro n hin
    rcases List.mem_append.1 hin with h | h
    · exact hmf n h
    · exact (hnf n h).2

end Grows

end Scope

theorem Ident.name_ne_of_not_blank {x : Ident} (hb : x.isBlank = false) : "_" ≠ x.name := by
  intro h
  simp [Ident.isBlank, ← h] at hb

/-- Declaring a name that is not blank grows the scope by it. -/
theorem Progress.declaring_grows {p : Progress} {x : Ident} (hb : x.isBlank = false)
    (hd : x.name ∉ p.scope.here) : p.scope.Grows (p.declaring x.name).scope [x.name] :=
  ⟨rfl, by simp, by simpa using Ident.name_ne_of_not_blank hb, by simpa using hd⟩

/-! ## Simple statements -/

section Simple

variable {src : Source} {p q : Progress}

theorem lowerAssign_grows {op : Operator} {pairs : List (Expr × Expr)} {fs : List Fragment}
    (h : (lowerAssign src op pairs).runFrom p = (.ok fs, q)) :
    p.scope.Grows q.scope (Fragment.names fs) := by
  induction pairs generalizing p fs with
  | nil =>
    obtain ⟨rfl, rfl⟩ := Lowering.pure_ok.1 h
    exact .refl _
  | cons pair pairs ih =>
    obtain ⟨f, r, gs, hf, hg, rfl⟩ := lowerAssign_cons_ok.1 h
    have hr := ih hg
    cases lowerPair_ok hf with
    | discard hb hv =>
      rw [Lowering.expr_scope hv] at hr
      exact hr
    | assign hb hv ht =>
      rw [Lowering.expr_scope ht, Lowering.expr_scope hv] at hr
      exact hr

theorem lowerBindings_grows {pairs : List (Ident × Expr)} {fs : List Fragment}
    (h : (lowerBindings src pairs).runFrom p = (.ok fs, q)) :
    p.scope.Grows q.scope (Fragment.names fs) := by
  induction pairs generalizing p fs with
  | nil =>
    obtain ⟨rfl, rfl⟩ := Lowering.pure_ok.1 h
    exact .refl _
  | cons pair pairs ih =>
    obtain ⟨f, r, gs, hf, hg, rfl⟩ := lowerBindings_cons_ok.1 h
    have hr := ih hg
    cases lowerBinding_ok hf with
    | discard hb hv =>
      rw [Lowering.expr_scope hv] at hr
      exact hr
    | rebind hb hd hv =>
      rw [Lowering.expr_scope hv] at hr
      exact hr
    | bind hb hd hv =>
      have hs := Lowering.expr_scope hv
      rw [← hs] at hd ⊢
      exact (Progress.declaring_grows hb (Scope.not_mem_here_of_isDeclared hd)).trans hr

theorem lowerName_grows {kind : DeclKind} {type : Option Primitive} {x : Ident} {v : Option Expr}
    {fs : List Fragment} (h : (lowerName src kind type x v).runFrom p = (.ok fs, q)) :
    p.scope.Grows q.scope (Fragment.names fs) := by
  cases lowerName_ok h with
  | skip hb hq => exact hq ▸ .refl _
  | discard hb hv => exact Lowering.expr_scope hv ▸ .refl _
  | declare hb hd hv =>
    rw [Lowering.optionExpr_scope hv]
    exact Progress.declaring_grows hb (Scope.isDeclaredHere_eq_false.1 hd)

theorem lowerNames_grows {kind : DeclKind} {type : Option Primitive} {names : List Ident}
    {values : List Expr} {fs : List Fragment}
    (h : (lowerNames src kind type names values).runFrom p = (.ok fs, q)) :
    p.scope.Grows q.scope (Fragment.names fs) := by
  induction names generalizing p fs values with
  | nil =>
    obtain ⟨rfl, rfl⟩ := Lowering.pure_ok.1 h
    exact .refl _
  | cons x names ih =>
    obtain ⟨gs, r, hs, hg, hh, rfl⟩ := lowerNames_cons_ok.1 h
    rw [Fragment.names_append]
    exact (lowerName_grows hg).trans (ih hh)

theorem lowerSpecs_grows {kind : DeclKind} {specs : List ValueSpec} {fs : List Fragment}
    (h : (lowerSpecs src kind specs).runFrom p = (.ok fs, q)) :
    p.scope.Grows q.scope (Fragment.names fs) := by
  induction specs generalizing p fs with
  | nil =>
    obtain ⟨rfl, rfl⟩ := Lowering.pure_ok.1 h
    exact .refl _
  | cons spec specs ih =>
    obtain ⟨gs, r, hs, hg, hh, rfl⟩ := lowerSpecs_cons_ok.1 h
    obtain ⟨type, -, -, hg⟩ := ValueSpec.lower_ok.1 hg
    rw [Fragment.names_append]
    exact (lowerNames_grows hg).trans (ih hh)

/-- A simple statement grows the scope by the names that its fragments declare. -/
theorem Stmt.lowerSimple_grows {s : Stmt} {fs : List Fragment}
    (h : (s.lowerSimple src).runFrom p = (.ok fs, q)) :
    p.scope.Grows q.scope (Fragment.names fs) := by
  cases Stmt.lowerSimple_ok h with
  | define hl hn hr h => exact lowerBindings_grows h
  | assign hl ho hd h => exact lowerAssign_grows h
  | decl h => exact lowerSpecs_grows h
  | step hx => exact Lowering.expr_scope hx ▸ .refl _

/-- So does a clause of a header, which may be missing. -/
theorem optionSimple_grows {s : Option Stmt} {fs : Option (List Fragment)}
    (h : (s.mapM (Stmt.lowerSimple src)).runFrom p = (.ok fs, q)) :
    p.scope.Grows q.scope (Fragment.names (fs.getD [])) := by
  cases s with
  | none =>
    obtain ⟨rfl, rfl⟩ := Lowering.mapM_none_ok.1 h
    exact .refl _
  | some s =>
    obtain ⟨fs, hf, rfl⟩ := Lowering.mapM_some_ok.1 h
    exact Stmt.lowerSimple_grows hf

end Simple

/-! ## Statements and blocks -/

section Blocks

variable {src : Source} {p q : Progress}

/-- A statement grows the scope by the names declared directly in its level. -/
theorem Stmt.lower_grows {s : Stmt} {t : Target.Stmt}
    (h : (s.lower src).runFrom p = (.ok t, q)) :
    p.scope.Grows q.scope (Fragment.names t.direct) := by
  cases s with
  | ret results span =>
    rcases Stmt.lower_ret_ok.1 h with ⟨-, rfl, rfl⟩ | ⟨v, x, -, hv, rfl⟩
    · exact .refl _
    · exact Lowering.expr_scope hv ▸ .refl _
  | assign | decl | step =>
    obtain ⟨fs, hf, rfl⟩ := (Stmt.lower_simple_ok rfl).1 h
    exact Stmt.lowerSimple_grows hf
  | cond init test body other span =>
    obtain ⟨init', p₁, test', p₂, body', p₃, other', p₄, -, -, -, -, rfl, rfl⟩ :=
      Stmt.lower_cond_ok.1 h
    exact .refl _
  | loop init test post body span =>
    obtain ⟨init', p₁, test', p₂, post', p₃, body', p₄, -, -, -, -, rfl, rfl⟩ :=
      Stmt.lower_loop_ok.1 h
    exact .refl _
  | block body =>
    obtain ⟨body', hb, rfl⟩ := Stmt.lower_block_ok.1 h
    exact Block.lower_scope hb ▸ .refl _
  | unsupported span => exact absurd h Stmt.lower_unsupported_ok

theorem Stmt.lowerList_grows {ss : List Stmt} {ts : List Target.Stmt}
    (h : (Stmt.lowerList src ss).runFrom p = (.ok ts, q)) :
    p.scope.Grows q.scope (Fragment.names (Target.directOf ts)) := by
  induction ss generalizing p ts with
  | nil =>
    obtain ⟨rfl, rfl⟩ := Stmt.lowerList_nil_ok.1 h
    exact .refl _
  | cons s ss ih =>
    obtain ⟨t, r, us, ht, hu, rfl⟩ := Stmt.lowerList_cons_ok.1 h
    rw [Target.directOf_cons, Fragment.names_append]
    exact (Stmt.lower_grows ht).trans (ih hu)

/-! ## Levels -/

/-- The fragments of a level declare each name once and never the blank one, and the scope left
behind holds just the names that they declare. -/
structure DeclaredOnce (fs : List Fragment) (s : Scope) : Prop where
  nodup : (Fragment.names fs).Nodup
  notBlank : "_" ∉ Fragment.names fs
  declared : ∀ n, s.isDeclaredHere n = true ↔ n ∈ Fragment.names fs

/-- A level starts empty, so it ends with what was added to it. -/
theorem Scope.Grows.declaredOnce {s t : Scope} {fs : List Fragment}
    (h : s.child.Grows t (Fragment.names fs)) : DeclaredOnce fs t := by
  obtain ⟨rfl, hn, hb, -⟩ := h
  refine ⟨hn, hb, fun n => ?_⟩
  rw [Scope.isDeclaredHere_iff]
  simp

/-- Levels of a text against scopes left by a run, in order. -/
abbrev AllDeclaredOnce (levels : List (List Fragment)) (es : List Event) : Prop :=
  List.Forall₂ DeclaredOnce levels (Event.left es)

theorem AllDeclaredOnce.append {ls ms : List (List Fragment)} {es fs : List Event}
    (h : AllDeclaredOnce ls es) (k : AllDeclaredOnce ms fs) :
    AllDeclaredOnce (ls ++ ms) (es ++ fs) := by
  unfold AllDeclaredOnce
  rw [Event.left_append]
  exact List.rel_append h k

theorem AllDeclaredOnce.leave {fs : List Fragment} {s : Scope} (h : DeclaredOnce fs s) :
    AllDeclaredOnce [fs] [.leave s] :=
  .cons h .nil

/-- The points of a simple statement leave no level. -/
theorem left_bindingTrace (pairs : List (Ident × Expr)) (p : Progress) :
    Event.left (bindingTrace src pairs p) = [] := by
  induction pairs generalizing p with
  | nil => rfl
  | cons pair pairs ih =>
    rw [bindingTrace, Event.left_append, ih]
    split <;> rfl

theorem left_simpleTrace (s : Stmt) (p : Progress) : Event.left (s.simpleTrace src p) = [] := by
  unfold Stmt.simpleTrace
  split
  · exact left_bindingTrace _ _
  · rfl

theorem left_optionTrace (s : Option Stmt) (p : Progress) :
    Event.left (s.elim [] (Stmt.simpleTrace src p)) = [] := by
  cases s with
  | none => rfl
  | some s => exact left_simpleTrace s p

end Blocks

section Levels

variable {src : Source}

/-! The induction follows the lowering: each part is lowered from the progress at which its trace
starts, since the parts before it succeeded. -/

mutual

theorem Stmt.levels_declaredOnce : ∀ (s : Stmt) {p q : Progress} {t : Target.Stmt},
    (s.lower src).runFrom p = (.ok t, q) → AllDeclaredOnce t.levels (s.trace src p)
  | .ret results span, p, q, t, h => by
    rcases Stmt.lower_ret_ok.1 h with ⟨-, rfl, -⟩ | ⟨v, x, -, -, rfl⟩ <;> exact .nil
  | .unsupported span, p, q, t, h => absurd h Stmt.lower_unsupported_ok
  | .assign lhs op rhs span, p, q, t, h | .decl kind specs span, p, q, t, h
  | .step operand op span, p, q, t, h => by
    obtain ⟨fs, -, rfl⟩ := (Stmt.lower_simple_ok rfl).1 h
    rw [Target.Stmt.levels, Stmt.trace, AllDeclaredOnce, left_simpleTrace]
    exact .nil
  | .cond init test body other span, p, q, t, h => by
    obtain ⟨init', p₁, test', p₂, body', p₃, other', p₄, hi, ht, hb, ho, rfl, rfl⟩ :=
      Stmt.lower_cond_ok.1 h
    have hs : p₄.scope = p₁.scope := by
      rw [Stmt.lowerOther_scope other ho, Block.lower_scope hb, Lowering.expr_scope ht]
    have hl : DeclaredOnce (init'.getD []) p₄.scope := hs ▸ (optionSimple_grows hi).declaredOnce
    have he := ((Block.levels_declaredOnce body hb).append
      (Stmt.otherLevels_declaredOnce other ho)).append (.leave hl)
    simp only [Stmt.trace, Lowering.after_of_ok hi, Lowering.after_of_ok ht,
      Lowering.after_of_ok hb, Lowering.after_of_ok ho]
    rw [List.append_assoc, List.append_assoc, AllDeclaredOnce, Event.left_append,
      left_optionTrace, List.nil_append, ← List.append_assoc, Target.Stmt.levels]
    exact he
  | .loop init test post body span, p, q, t, h => by
    obtain ⟨init', p₁, test', p₂, post', p₃, body', p₄, hi, ht, hp, hb, rfl, rfl⟩ :=
      Stmt.lower_loop_ok.1 h
    have hl : DeclaredOnce (init'.getD [] ++ post'.getD []) p₄.scope := by
      rw [Block.lower_scope hb]
      apply Scope.Grows.declaredOnce (s := p.scope)
      rw [Fragment.names_append]
      exact (optionSimple_grows hi).trans (Lowering.optionExpr_scope ht ▸ optionSimple_grows hp)
    have he := (Block.levels_declaredOnce body hb).append (.leave hl)
    simp only [Stmt.trace, Lowering.after_of_ok hi, Lowering.after_of_ok ht,
      Lowering.after_of_ok hp, Lowering.after_of_ok hb]
    rw [List.append_assoc, List.append_assoc, AllDeclaredOnce, Event.left_append,
      Event.left_append, left_optionTrace, left_optionTrace, List.nil_append, List.nil_append,
      Target.Stmt.levels]
    exact he
  | .block body, p, q, t, h => by
    obtain ⟨body', hb, rfl⟩ := Stmt.lower_block_ok.1 h
    rw [Target.Stmt.levels, Stmt.trace]
    exact Block.levels_declaredOnce body hb

theorem Stmt.otherLevels_declaredOnce : ∀ (other : Option Stmt) {p q : Progress}
    {b : Target.Branch}, (Stmt.lowerOther src other).runFrom p = (.ok b, q) →
    AllDeclaredOnce b.levels (Stmt.otherTrace src other p)
  | none, p, q, b, h => by
    obtain ⟨rfl, rfl⟩ := Stmt.lowerOther_none_ok.1 h
    exact .nil
  | some (.block body), p, q, b, h => by
    obtain ⟨body', hb, rfl⟩ := Stmt.lowerOther_block_ok.1 h
    rw [Target.Branch.levels, Stmt.otherTrace]
    exact Block.levels_declaredOnce body hb
  | some (.cond none test body other span), p, q, b, h => by
    obtain ⟨test', p₁, body', p₂, other', ht, hb, ho, rfl⟩ := Stmt.lowerOther_chain_ok.1 h
    simp only [Stmt.otherTrace, Lowering.after_of_ok ht, Lowering.after_of_ok hb]
    rw [Target.Branch.levels]
    exact (Block.levels_declaredOnce body hb).append (Stmt.otherLevels_declaredOnce other ho)
  | some (.cond (some init) test body other span), p, q, b, h => by
    obtain ⟨init', p₁, test', p₂, body', p₃, other', p₄, hi, ht, hb, ho, rfl, rfl⟩ :=
      Stmt.lowerOther_wrapped_ok.1 h
    have hs : p₄.scope = p₁.scope := by
      rw [Stmt.lowerOther_scope other ho, Block.lower_scope hb, Lowering.expr_scope ht]
    have hl : DeclaredOnce init' p₄.scope := hs ▸ (Stmt.lowerSimple_grows hi).declaredOnce
    have he := ((Block.levels_declaredOnce body hb).append
      (Stmt.otherLevels_declaredOnce other ho)).append (.leave hl)
    simp only [Stmt.otherTrace, Lowering.after_of_ok hi, Lowering.after_of_ok ht,
      Lowering.after_of_ok hb, Lowering.after_of_ok ho]
    rw [List.append_assoc, List.append_assoc, AllDeclaredOnce, Event.left_append,
      left_simpleTrace, List.nil_append, ← List.append_assoc, Target.Branch.levels]
    exact he
  | some (.ret ..), p, q, b, h | some (.assign ..), p, q, b, h | some (.decl ..), p, q, b, h
  | some (.step ..), p, q, b, h | some (.loop ..), p, q, b, h
  | some (.unsupported _), p, q, b, h => absurd h Lowering.reject_ok

theorem Stmt.listLevels_declaredOnce : ∀ (ss : List Stmt) {p q : Progress}
    {ts : List Target.Stmt}, (Stmt.lowerList src ss).runFrom p = (.ok ts, q) →
    AllDeclaredOnce (Target.Stmt.listLevels ts) (Stmt.listTrace src ss p)
  | [], p, q, ts, h => by
    obtain ⟨rfl, rfl⟩ := Stmt.lowerList_nil_ok.1 h
    exact .nil
  | s :: ss, p, q, ts, h => by
    obtain ⟨t, r, us, ht, hu, rfl⟩ := Stmt.lowerList_cons_ok.1 h
    rw [Target.Stmt.listLevels, Stmt.listTrace, Lowering.after_of_ok ht]
    exact (Stmt.levels_declaredOnce s ht).append (Stmt.listLevels_declaredOnce ss hu)

theorem Block.levels_declaredOnce : ∀ (b : Block) {p q : Progress} {ts : List Target.Stmt},
    (b.lower src).runFrom p = (.ok ts, q) →
    AllDeclaredOnce (Target.blockLevels ts) (b.trace src p)
  | .mk ss span, p, q, ts, h => by
    obtain ⟨r, hr, rfl⟩ := Block.lower_ok.1 h
    rw [Target.blockLevels, Block.trace, Lowering.after_of_ok hr]
    exact (Stmt.listLevels_declaredOnce ss hr).append
      (.leave (Stmt.lowerList_grows hr).declaredOnce)

end

end Levels

/-- **No redeclaration.** Under either policy, a function or a block that is lowered leaves one
level for each block and each header of its text, in order. At each of them the names declared by
the fragments that stand directly in the level are distinct and not blank, and the scope left
behind holds exactly these names. -/
theorem levels_declare_once (src : Source) :
    (∀ (f : Func) (policy : ScopePolicy) (lost : List Degradation) (t : Target.Func)
        (q : Progress), (f.lowerParts src).runFrom ⟨.root policy, lost⟩ = (.ok t, q) →
      List.Forall₂ DeclaredOnce (f.body.elim [] fun _ => Target.blockLevels t.body)
        (Event.left (f.trace src ⟨.root policy, lost⟩))) ∧
    ∀ (b : Block) (p q : Progress) (ts : List Target.Stmt),
      (b.lower src).runFrom p = (.ok ts, q) →
      List.Forall₂ DeclaredOnce (Target.blockLevels ts) (Event.left (b.trace src p)) := by
  refine ⟨?_, fun b p q ts h => Block.levels_declaredOnce b h⟩
  intro f policy lost t q h
  obtain ⟨result, params, r, body, -, hp, hb, rfl⟩ := Func.lowerParts_ok.1 h
  unfold Func.trace
  rw [Lowering.after_of_ok hp]
  cases hf : f.body with
  | none => exact .nil
  | some b =>
    rw [hf] at hb
    exact Block.levels_declaredOnce b hb

/-- Chained levels: `x` is seen inside the `if`, so only `z` is declared there. -/
theorem levels_declare_once_nested :
    ∃ t q, (Func.nested.lowerParts ⟨""⟩).runFrom ⟨.root .chained, []⟩ = (.ok t, q) ∧
      List.Forall₂ DeclaredOnce (Target.blockLevels t.body)
        (Event.left (Func.nested.trace ⟨""⟩ ⟨.root .chained, []⟩)) ∧
      (Target.blockLevels t.body).map Fragment.names = [["z"], ["y"], ["x"]] := by
  refine ⟨_, _, rfl, (levels_declare_once ⟨""⟩).1 Func.nested .chained [] _ _ rfl, ?_⟩
  decide

end Recast
