import Recast.Proofs.Chained
import Recast.Proofs.Clauses
import Recast.Proofs.Signature

/-!
# The headers of loops

What the header of a lowered loop holds. Its first clause has at most one fragment, as several are
written in front of the loop. Its last clause has assignments, steps by one and values given to no
name, and besides these what a `:=` binds there: the names that cannot be seen after the initializer
(`Stmt.lower_loop_header`). C++ has no room for a declaration in that place, and the clause is free
of them just if there is no such name (`File.loop_headers`).
-/

namespace Recast

open Target (Fragment)

/-! ## The fragments of a clause -/

/-- An assignment, a step by one or a value given to no name. -/
def Target.Fragment.isEffect : Fragment → Bool
  | .rebind .. | .discard _ | .assign .. => true
  | .step _ op => op == .inc || op == .dec
  | .bind .. | .declare .. => false

theorem Target.Fragment.names_of_effects {fs : List Fragment}
    (h : ∀ g ∈ fs, g.isEffect = true) : Fragment.names fs = [] := by
  refine List.filterMap_eq_nil_iff.2 fun g hg => ?_
  have heffect := h g hg
  cases g with
  | bind | declare => cases heffect
  | rebind | discard | assign | step => rfl

/-- Fragments that are effects or bind a name, and the names that they bind are those that cannot be
seen yet. -/
structure BindsUnseen (scope : Scope) (names : List String) (fs : List Fragment) : Prop where
  effect_or_bind : ∀ g ∈ fs, g.isEffect = true ∨ ∃ n v, g = .bind n v
  names_iff : ∀ n, n ∈ Fragment.names fs ↔ n ∈ names ∧ scope.isDeclared n = false

namespace BindsUnseen

variable {scope : Scope} {names : List String} {fs : List Fragment}

theorem of_effects (h : ∀ g ∈ fs, g.isEffect = true) : BindsUnseen scope [] fs :=
  ⟨fun g hg => .inl (h g hg), fun n => by simp [Fragment.names_of_effects h]⟩

/-- A fragment binds a name just if it is no effect. -/
theorem effects_iff (h : BindsUnseen scope names fs) :
    (∀ g ∈ fs, g.isEffect = true) ↔ ∀ n ∈ names, scope.isDeclared n = true := by
  constructor
  · intro heffects n hn
    by_contra hd
    have hmem := (h.names_iff n).2 ⟨hn, Bool.not_eq_true _ ▸ hd⟩
    rw [Fragment.names_of_effects heffects] at hmem
    cases hmem
  · intro hseen g hg
    rcases h.effect_or_bind g hg with heffect | ⟨n, v, rfl⟩
    · exact heffect
    · have hmem : n ∈ Fragment.names fs := List.mem_filterMap.2 ⟨_, hg, rfl⟩
      obtain ⟨hn, hd⟩ := (h.names_iff n).1 hmem
      rw [hseen n hn] at hd
      cases hd

end BindsUnseen

section Simple

variable {src : Source} {p q : Progress} {fs : List Fragment}

theorem lowerAssign_effects {op : Operator} {pairs : List (Expr × Expr)}
    (h : (lowerAssign src op pairs).runFrom p = (.ok fs, q)) :
    ∀ g ∈ fs, g.isEffect = true := by
  induction pairs generalizing p fs with
  | nil =>
    obtain ⟨rfl, -⟩ := Lowering.pure_ok.1 h
    exact List.forall_mem_nil _
  | cons pair pairs ih =>
    obtain ⟨f, r, gs, hf, hg, rfl⟩ := lowerAssign_cons_ok.1 h
    have heffect : f.isEffect = true := by cases lowerPair_ok hf <;> rfl
    exact List.forall_mem_cons.2 ⟨heffect, ih hg⟩

theorem lowerBindings_unseen {pairs : List (Ident × Expr)}
    (h : (lowerBindings src pairs).runFrom p = (.ok fs, q)) :
    BindsUnseen p.scope (Ident.visible (pairs.map Prod.fst)) fs := by
  induction pairs generalizing p fs with
  | nil =>
    obtain ⟨rfl, -⟩ := Lowering.pure_ok.1 h
    exact .of_effects (List.forall_mem_nil _)
  | cons pair pairs ih =>
    obtain ⟨x, rhs⟩ := pair
    obtain ⟨f, r, gs, hf, hg, rfl⟩ := lowerBindings_cons_ok.1 h
    have hgs := ih hg
    rw [List.map_cons, Ident.visible_cons]
    cases lowerBinding_ok hf with
    | discard hb hv =>
      rw [Lowering.expr_scope hv] at hgs
      rw [Ident.visible_of_blank hb, List.nil_append]
      exact ⟨List.forall_mem_cons.2 ⟨.inl rfl, hgs.effect_or_bind⟩, hgs.names_iff⟩
    | rebind hb hd hv =>
      -- the name can be seen, so it is none of those that are bound
      rw [Lowering.expr_scope hv] at hgs
      rw [Ident.visible_of_not_blank hb, List.singleton_append]
      refine ⟨List.forall_mem_cons.2 ⟨.inl rfl, hgs.effect_or_bind⟩, fun n => ?_⟩
      rw [List.mem_cons]
      refine (hgs.names_iff n).trans (and_congr_left fun hn => (or_iff_right ?_).symm)
      rintro rfl
      rw [hd] at hn
      cases hn
    | @bind value r hb hd hv =>
      rw [Ident.visible_of_not_blank hb, List.singleton_append]
      refine ⟨List.forall_mem_cons.2 ⟨.inr ⟨_, _, rfl⟩, hgs.effect_or_bind⟩, fun n => ?_⟩
      -- the rest is lowered where the name can be seen, so it is bound here and not again
      have hseen : (r.declaring x.name).scope.isDeclared n = false ↔
          n ≠ x.name ∧ p.scope.isDeclared n = false := by
        rw [← Bool.not_eq_true, Beside.declaring_isDeclared, Lowering.expr_scope hv, not_or,
          Bool.not_eq_true]
      have hnames : n ∈ Fragment.names (.bind x.name value :: gs) ↔
          n = x.name ∨ n ∈ Fragment.names gs := List.mem_cons
      rw [hnames, hgs.names_iff, hseen, List.mem_cons]
      by_cases hn : n = x.name
      · simp [hn, hd]
      · simp [hn]

/-- A simple statement that can be read in a header. -/
theorem Stmt.lowerSimple_unseen {s : Stmt} (hs : s.isClause = true)
    (h : (s.lowerSimple src).runFrom p = (.ok fs, q)) : BindsUnseen p.scope s.introduced fs := by
  cases Stmt.lowerSimple_ok h with
  | @define lhs rhs span names fs hl hn hr h =>
    have hnames : (names.zip rhs).map Prod.fst = lhs.filterMap Expr.name? := by
      rw [List.map_fst_zip (by rw [Expr.names_length hn, hl]), Expr.names_eq hn]
    rw [Stmt.introduced, if_pos rfl, ← hnames]
    exact lowerBindings_unseen h
  | assign hl ho hd h =>
    rw [Stmt.introduced, if_neg hd]
    exact .of_effects (lowerAssign_effects h)
  | decl => cases hs
  | step => exact .of_effects (List.forall_mem_singleton.2 hs)

theorem optionSimple_unseen {s : Option Stmt} {fs : Option (List Fragment)}
    (hs : ∀ t ∈ s, t.isClause = true)
    (h : (s.mapM (Stmt.lowerSimple src)).runFrom p = (.ok fs, q)) :
    BindsUnseen p.scope (s.elim [] Stmt.introduced) (fs.getD []) := by
  cases s with
  | none =>
    obtain ⟨rfl, -⟩ := Lowering.mapM_none_ok.1 h
    exact .of_effects (List.forall_mem_nil _)
  | some s =>
    obtain ⟨fs, hf, rfl⟩ := Lowering.mapM_some_ok.1 h
    exact Stmt.lowerSimple_unseen (hs s rfl) hf

end Simple

/-! ## A loop -/

namespace Target

/-- Of the fragments of an initializer one at most is written in the header; several are written in
front of the loop, each with its terminator, in braces around both. -/
theorem Stmt.text_loop (init : List Fragment) (test : Option Expr) (post : List Fragment)
    (body : List Stmt) :
    (Stmt.loop init test post body).text =
      if init.length ≤ 1 then
        Target.loop (Fragment.clause init) test post (Stmt.listText body) ++ "\n"
      else enclosed init (Target.loop "" test post (Stmt.listText body)) := by
  rcases init with _ | ⟨f, _ | ⟨g, fs⟩⟩
  · rfl
  · rfl
  · rw [if_neg (by simp)]
    rfl

end Target

/-- A loop with the clauses that its statement has from a given progress. -/
structure Stmt.HeaderBecomes (src : Source) (p : Progress) (init post : Option Stmt)
    (fs : List Fragment) (x : Option Target.Expr) (gs : List Fragment) (ss : List Target.Stmt)
    (t : Target.Stmt) : Prop where
  eq : t = .loop fs x gs ss
  /-- The fragments of the initializer, in order. -/
  init_eq : ∃ init', ((init.mapM (Stmt.lowerSimple src)).runFrom p.inner).1 = .ok init' ∧
    fs = init'.getD []
  /-- The header has one of them at most, and the last clause as a whole. -/
  text_eq : t.text =
    if fs.length ≤ 1 then
      Target.loop (Fragment.clause fs) x gs (Target.Stmt.listText ss) ++ "\n"
    else Target.enclosed fs (Target.loop "" x gs (Target.Stmt.listText ss))
  /-- The last clause binds the names of a `:=` that cannot be seen after the initializer. -/
  binds : BindsUnseen ((init.mapM (Stmt.lowerSimple src)).after p.inner).scope
    (post.elim [] Stmt.introduced) gs

theorem Stmt.lower_loop_header {src : Source} {p q : Progress} {init : Option Stmt}
    {test : Option Expr} {post : Option Stmt} {body : Block} {span : Span} {t : Target.Stmt}
    (hpost : ∀ s ∈ post, s.isClause = true)
    (h : ((Stmt.loop init test post body span).lower src).runFrom p = (.ok t, q)) :
    ∃ fs x gs ss, Stmt.HeaderBecomes src p init post fs x gs ss t := by
  obtain ⟨init', p₁, test', p₂, post', p₃, body', p₄, hi, ht, hp, -, rfl, -⟩ :=
    Stmt.lower_loop_ok.1 h
  have hunseen := optionSimple_unseen hpost hp
  rw [Lowering.optionExpr_scope ht, ← Lowering.after_of_ok hi] at hunseen
  exact ⟨_, _, _, _, rfl, ⟨init', by rw [hi], rfl⟩, Target.Stmt.text_loop .., hunseen⟩

/-! ## The loops of a text -/

namespace Target

mutual

/-- The loops in a statement at every depth, in the order in which they are written. -/
def Stmt.loops : Stmt → List Stmt
  | .loop init test post body => .loop init test post body :: Stmt.listLoops body
  | .cond _ _ body other => Stmt.listLoops body ++ other.loops
  | .block body => Stmt.listLoops body
  | .ret _ | .simple _ => []
termination_by structural s => s

def Stmt.listLoops : List Stmt → List Stmt
  | [] => []
  | s :: ss => s.loops ++ Stmt.listLoops ss
termination_by structural ss => ss

def Branch.loops : Branch → List Stmt
  | .none => []
  | .block body => Stmt.listLoops body
  | .chain _ body other | .wrapped _ _ body other => Stmt.listLoops body ++ other.loops
termination_by structural b => b

end

/-- The loops of a function. -/
def Func.loops (f : Func) : List Stmt := Stmt.listLoops f.body

/-- The last clause of a loop. -/
def Stmt.post : Stmt → List Fragment
  | .loop _ _ post _ => post
  | _ => []

/-- One text stands in another. -/
def Within (t u : String) : Prop := ∃ before after, u = before ++ t ++ after

namespace Within

variable {t u : String}

theorem refl (t : String) : Within t t := ⟨"", "", by simp⟩

theorem append (h : Within t u) (v : String) : Within t (u ++ v) := by
  obtain ⟨before, after, rfl⟩ := h
  exact ⟨before, after ++ v, by rw [String.append_assoc]⟩

theorem prepend (h : Within t u) (v : String) : Within t (v ++ u) := by
  obtain ⟨before, after, rfl⟩ := h
  exact ⟨v ++ before, after, by simp only [String.append_assoc]⟩

theorem braced (h : Within t u) : Within t (Target.braced u) := (h.prepend _).append _

theorem enclosed (h : Within t u) (fs : List Fragment) : Within t (Target.enclosed fs u) :=
  (((h.prepend _).append _).append _).append _

theorem loop (h : Within t u) (init : String) (test : Option Expr) (post : List Fragment) :
    Within t (Target.loop init test post u) :=
  h.braced.prepend _

theorem body_of_conditional (h : Within t u) (test : Expr) (other : String) :
    Within t (conditional test u other) :=
  (h.braced.prepend _).append _

theorem other_of_conditional (h : Within t u) (test : Expr) (body : String) :
    Within t (conditional test body u) :=
  h.prepend _

end Within

mutual

theorem Stmt.loops_within : ∀ s : Stmt, ∀ t ∈ s.loops, Within t.text s.text
  | .ret _ | .simple _ => List.forall_mem_nil _
  | .loop init test post body => by
    rw [Stmt.loops, List.forall_mem_cons]
    refine ⟨.refl _, fun t ht => ?_⟩
    have hbody := Stmt.listLoops_within body t ht
    rw [Stmt.text_loop]
    split
    · exact (hbody.loop ..).append _
    · exact (hbody.loop ..).enclosed _
  | .cond init test body other => by
    rw [Stmt.loops]
    intro t ht
    have hinner : Within t.text (conditional test (Stmt.listText body) other.text) :=
      (List.mem_append.1 ht).elim
        (fun ht => (Stmt.listLoops_within body t ht).body_of_conditional ..)
        (fun ht => (Branch.loops_within other t ht).other_of_conditional ..)
    cases init with
    | none => exact hinner.append _
    | some fs => exact hinner.enclosed fs
  | .block body => fun t ht => (Stmt.listLoops_within body t ht).braced.append _

theorem Stmt.listLoops_within : ∀ ss : List Stmt, ∀ t ∈ Stmt.listLoops ss,
    Within t.text (Stmt.listText ss)
  | [] => List.forall_mem_nil _
  | s :: ss => List.forall_mem_append.2
    ⟨fun t ht => (Stmt.loops_within s t ht).append _,
      fun t ht => (Stmt.listLoops_within ss t ht).prepend _⟩

theorem Branch.loops_within : ∀ b : Branch, ∀ t ∈ b.loops, Within t.text b.text
  | .none => List.forall_mem_nil _
  | .block body => fun t ht => (Stmt.listLoops_within body t ht).braced.prepend _
  | .chain _ body other => List.forall_mem_append.2
    ⟨fun t ht => ((Stmt.listLoops_within body t ht).body_of_conditional ..).prepend _,
      fun t ht => ((Branch.loops_within other t ht).other_of_conditional ..).prepend _⟩
  | .wrapped init _ body other => List.forall_mem_append.2
    ⟨fun t ht => ((((Stmt.listLoops_within body t ht).body_of_conditional ..).enclosed
        init).prepend _).append _,
      fun t ht => ((((Branch.loops_within other t ht).other_of_conditional ..).enclosed
        init).prepend _).append _⟩

end

/-- The text of each loop stands in the text of the function. -/
theorem Func.loops_within (f : Func) : ∀ t ∈ f.loops, Within t.text f.text := fun t ht =>
  ((Stmt.listLoops_within f.body t ht).braced.prepend _).append _

end Target

/-! ## The loops of a function -/

/-- One statement becomes the other somewhere under a policy. -/
def Stmt.Becomes (src : Source) (policy : ScopePolicy) (s : Stmt) (t : Target.Stmt) : Prop :=
  ∃ p q, p.scope.policy = policy ∧ (s.lower src).runFrom p = (.ok t, q)

/-- Growing a scope keeps its policy. -/
theorem Scope.Grows.policy {s t : Scope} {names : List String} (h : s.Grows t names) :
    t.policy = s.policy := by rw [h.eq]

section Blocks

variable {src : Source} {policy : ScopePolicy}

mutual

theorem Stmt.lower_loops : ∀ (s : Stmt) {p q : Progress} {t : Target.Stmt},
    p.scope.policy = policy → (s.lower src).runFrom p = (.ok t, q) →
    List.Forall₂ (Stmt.Becomes src policy) s.loops t.loops
  | .ret results span, p, q, t, hp, h => by
    rcases Stmt.lower_ret_ok.1 h with ⟨-, rfl, -⟩ | ⟨v, x, -, -, rfl⟩
    · exact .nil
    · exact .nil
  | .assign lhs op rhs span, p, q, t, hp, h | .decl kind specs span, p, q, t, hp, h
  | .step operand op span, p, q, t, hp, h => by
    obtain ⟨fs, -, rfl⟩ := (Stmt.lower_simple_ok rfl).1 h
    exact .nil
  | .cond init test body other span, p, q, t, hp, h => by
    obtain ⟨init', p₁, test', p₂, body', p₃, other', p₄, hi, ht, hb, ho, rfl, -⟩ :=
      Stmt.lower_cond_ok.1 h
    -- the initializer declares names at a level of its own, which has the same policy
    have hp₂ : p₂.scope.policy = policy := by
      rw [Lowering.expr_scope ht, (optionSimple_grows hi).policy, Progress.inner_scope,
        Scope.child_policy, hp]
    exact List.rel_append (Block.lower_loops body hp₂ hb)
      (Stmt.lowerOther_loops other (by rw [Block.lower_scope hb, hp₂]) ho)
  | .loop init test post body span, p, q, t, hp, h => by
    have hself : Stmt.Becomes src policy (.loop init test post body span) t := ⟨p, q, hp, h⟩
    obtain ⟨init', p₁, test', p₂, post', p₃, body', p₄, hi, ht, ho, hb, rfl, -⟩ :=
      Stmt.lower_loop_ok.1 h
    have hp₃ : p₃.scope.policy = policy := by
      rw [(optionSimple_grows ho).policy, Lowering.optionExpr_scope ht,
        (optionSimple_grows hi).policy, Progress.inner_scope, Scope.child_policy, hp]
    exact .cons hself (Block.lower_loops body hp₃ hb)
  | .block body, p, q, t, hp, h => by
    obtain ⟨body', hb, rfl⟩ := Stmt.lower_block_ok.1 h
    exact Block.lower_loops body hp hb
  | .unsupported span, p, q, t, hp, h => absurd h Stmt.lower_unsupported_ok

theorem Stmt.lowerOther_loops : ∀ (other : Option Stmt) {p q : Progress} {b : Target.Branch},
    p.scope.policy = policy → (Stmt.lowerOther src other).runFrom p = (.ok b, q) →
    List.Forall₂ (Stmt.Becomes src policy) (Stmt.optionLoops other) b.loops
  | none, p, q, b, hp, h => by
    obtain ⟨rfl, -⟩ := Stmt.lowerOther_none_ok.1 h
    exact .nil
  | some (.block body), p, q, b, hp, h => by
    obtain ⟨body', hb, rfl⟩ := Stmt.lowerOther_block_ok.1 h
    exact Block.lower_loops body hp hb
  | some (.cond none test body other span), p, q, b, hp, h => by
    obtain ⟨test', p₁, body', p₂, other', ht, hb, ho, rfl⟩ := Stmt.lowerOther_chain_ok.1 h
    have hp₁ : p₁.scope.policy = policy := by rw [Lowering.expr_scope ht, hp]
    exact List.rel_append (Block.lower_loops body hp₁ hb)
      (Stmt.lowerOther_loops other (by rw [Block.lower_scope hb, hp₁]) ho)
  | some (.cond (some init) test body other span), p, q, b, hp, h => by
    obtain ⟨init', p₁, test', p₂, body', p₃, other', p₄, hi, ht, hb, ho, rfl, -⟩ :=
      Stmt.lowerOther_wrapped_ok.1 h
    have hp₂ : p₂.scope.policy = policy := by
      rw [Lowering.expr_scope ht, (Stmt.lowerSimple_grows hi).policy, Progress.inner_scope,
        Scope.child_policy, hp]
    exact List.rel_append (Block.lower_loops body hp₂ hb)
      (Stmt.lowerOther_loops other (by rw [Block.lower_scope hb, hp₂]) ho)
  | some (.ret ..), p, q, b, hp, h | some (.assign ..), p, q, b, hp, h
  | some (.decl ..), p, q, b, hp, h | some (.step ..), p, q, b, hp, h
  | some (.loop ..), p, q, b, hp, h | some (.unsupported _), p, q, b, hp, h =>
    absurd h Lowering.reject_ok

theorem Stmt.lowerList_loops : ∀ (ss : List Stmt) {p q : Progress} {ts : List Target.Stmt},
    p.scope.policy = policy → (Stmt.lowerList src ss).runFrom p = (.ok ts, q) →
    List.Forall₂ (Stmt.Becomes src policy) (Stmt.listLoops ss) (Target.Stmt.listLoops ts)
  | [], p, q, ts, hp, h => by
    obtain ⟨rfl, -⟩ := Stmt.lowerList_nil_ok.1 h
    exact .nil
  | s :: ss, p, q, ts, hp, h => by
    obtain ⟨t, r, us, ht, hu, rfl⟩ := Stmt.lowerList_cons_ok.1 h
    exact List.rel_append (Stmt.lower_loops s hp ht)
      (Stmt.lowerList_loops ss (by rw [(Stmt.lower_grows ht).policy, hp]) hu)

theorem Block.lower_loops : ∀ (b : Block) {p q : Progress} {ts : List Target.Stmt},
    p.scope.policy = policy → (b.lower src).runFrom p = (.ok ts, q) →
    List.Forall₂ (Stmt.Becomes src policy) b.loops (Target.Stmt.listLoops ts)
  | .mk ss span, p, q, ts, hp, h => by
    obtain ⟨r, hr, -⟩ := Block.lower_ok.1 h
    exact Stmt.lowerList_loops ss (by rw [Progress.inner_scope, Scope.child_policy, hp]) hr

end

/-- The loops of a function become those of its text, one by one. -/
theorem Func.lower_loops {f : Func} {l : Func.Lowered} (h : f.lower src policy = .ok l) :
    List.Forall₂ (Stmt.Becomes src policy) f.loops l.func.loops := by
  obtain ⟨q, hq, -⟩ := Func.lower_ok.1 h
  obtain ⟨result, params, r, body, -, hparams, hb, hfunc⟩ := Func.lowerParts_ok.1 hq
  have hr : r.scope.policy = policy := (lowerParams_grows hparams).2.policy
  rw [hfunc, Func.loops, Target.Func.loops]
  cases hf : f.body with
  | none =>
    rw [hf] at hb
    obtain ⟨rfl, -⟩ := Lowering.pure_ok.1 hb
    exact .nil
  | some b =>
    rw [hf] at hb
    exact Block.lower_loops b hr hb

end Blocks

/-! ## Functions of a file -/

namespace File

/-- What is seen of the only function of a file, whatever the policy. -/
theorem exists_lowered (src : Source) {α : Type} (seen : Func → Func.Lowered → α) (a : α)
    (h : ∀ policy, (read src).toOption.map (fun file => file.funcs.map fun f =>
      (f.lower src policy).toOption.map (seen f)) = some [some a]) :
    ∃ file f, read src = .ok file ∧ f ∈ file.funcs ∧
      ∀ policy, ∃ l, f.lower src policy = .ok l ∧ seen f l = a := by
  obtain ⟨file, hread, he⟩ := Option.map_eq_some_iff.1 (h .isolated)
  obtain ⟨f, hfuncs, -⟩ := List.map_eq_singleton_iff.1 he
  refine ⟨file, f, eq_ok_of_toOption hread, hfuncs ▸ List.mem_singleton_self f, fun policy => ?_⟩
  have hpolicy := h policy
  rw [hread, Option.map_some, hfuncs, List.map_singleton] at hpolicy
  obtain ⟨l, hl, ha⟩ := Option.map_eq_some_iff.1 (List.singleton_inj.1 (Option.some.inj hpolicy))
  exact ⟨l, eq_ok_of_toOption hl, ha⟩

/-- **Headers of loops.** Whatever the policy, and whatever has been declared around it, a loop of a
file that is lowered has one fragment of its initializer at most in its header. In the last clause
are effects, and the names that a `:=` there binds because they cannot be seen after the
initializer; so all of it are effects just if there is none. The loops of a function that is lowered
are those of its text. -/
theorem loop_headers {src : Source} {file : File} (hread : read src = .ok file) {f : Func}
    (hf : f ∈ file.funcs) :
    (∀ init test post body span, Stmt.loop init test post body span ∈ f.loops → ∀ p q t,
      ((Stmt.loop init test post body span).lower src).runFrom p = (.ok t, q) →
      ∃ fs x gs ss, Stmt.HeaderBecomes src p init post fs x gs ss t ∧
        ((∀ g ∈ gs, g.isEffect = true) ↔ ∀ n ∈ post.elim [] Stmt.introduced,
          ((init.mapM (Stmt.lowerSimple src)).after p.inner).scope.isDeclared n = true)) ∧
    ∀ policy l, f.lower src policy = .ok l →
      List.Forall₂ (Stmt.Becomes src policy) f.loops l.func.loops ∧
        ∀ t ∈ l.func.loops, Target.Within t.text l.text := by
  refine ⟨fun init test post body span hmem p q t h => ?_, fun policy l h => ?_⟩
  · have hclauses : (LoopHeader.clauses init test post).HasClauses :=
      funcs_clauses hread f hf _ hmem
    obtain ⟨fs, x, gs, ss, hheader⟩ := Stmt.lower_loop_header hclauses.2 h
    exact ⟨fs, x, gs, ss, hheader, hheader.binds.effects_iff⟩
  · exact ⟨Func.lower_loops h, l.func.loops_within⟩

/-- A loop with two names, both set in its last clause, and a loop without clauses in it. -/
def pairwise : Source :=
  ⟨"func f() \x7b\n\tfor i, j := 0, 9; i < j; i, j = i+1, j-1 \x7b\n" ++
    "\t\tfor \x7b\n\t\t\x7d\n\t\x7d\n\x7d\n"⟩

theorem loop_headers_pairwise :
    ∃ file f l, read pairwise = .ok file ∧ f ∈ file.funcs ∧
      f.lower pairwise .chained = .ok l ∧ f.loops.length = 2 ∧
      l.text = "void f() \x7b\n\x7b\nauto i = 0;\nauto j = 9;\n" ++
        "for(; i < j; i = i + 1, j = j - 1) \x7b\nfor(;;) \x7b\n\x7d\n\x7d\n\x7d\n\x7d\n" ∧
      (∀ init test post body span, Stmt.loop init test post body span ∈ f.loops → ∀ p q t,
        ((Stmt.loop init test post body span).lower pairwise).runFrom p = (.ok t, q) →
        ∃ fs x gs ss, Stmt.HeaderBecomes pairwise p init post fs x gs ss t ∧
          ((∀ g ∈ gs, g.isEffect = true) ↔ ∀ n ∈ post.elim [] Stmt.introduced,
            ((init.mapM (Stmt.lowerSimple pairwise)).after p.inner).scope.isDeclared n = true)) ∧
      List.Forall₂ (Stmt.Becomes pairwise .chained) f.loops l.func.loops ∧
      ∀ t ∈ l.func.loops, Target.Within t.text l.text := by
  obtain ⟨file, f, hread, hf, hlower⟩ := exists_lowered pairwise
    (fun f l => (f.loops.length, l.text))
    (2, "void f() \x7b\n\x7b\nauto i = 0;\nauto j = 9;\n" ++
      "for(; i < j; i = i + 1, j = j - 1) \x7b\nfor(;;) \x7b\n\x7d\n\x7d\n\x7d\n\x7d\n")
    fun policy => by cases policy <;> decide +kernel
  obtain ⟨l, hl, hseen⟩ := hlower .chained
  obtain ⟨hloops, htext⟩ := Prod.mk.inj hseen
  obtain ⟨hheaders, hlowered⟩ := loop_headers hread hf
  exact ⟨file, f, l, hread, hf, hl, hloops, htext, hheaders, hlowered .chained l hl⟩

/-- The last clause of the loop binds a name. -/
def declaring : Source :=
  ⟨"func f() \x7b\n\tfor i := 0; i < 3; j := i \x7b\n\t\x7d\n\x7d\n"⟩

/-- The declaration is written in the header, and the function counts as exact. -/
theorem declared_in_last_clause :
    ∃ file f, read declaring = .ok file ∧ f ∈ file.funcs ∧ ∀ policy, ∃ l,
      f.lower declaring policy = .ok l ∧ l.isDegraded = false ∧
      l.text = "void f() \x7b\nfor(auto i = 0; i < 3; auto j = i) \x7b\n\x7d\n\x7d\n" ∧
      ¬ ∀ t ∈ l.func.loops, ∀ g ∈ t.post, g.declared? = none := by
  obtain ⟨file, f, hread, hf, hlower⟩ := exists_lowered declaring
    (fun _ l => (l.isDegraded, l.text, l.func.loops.flatMap fun t => Fragment.names t.post))
    (false, "void f() \x7b\nfor(auto i = 0; i < 3; auto j = i) \x7b\n\x7d\n\x7d\n", ["j"])
    fun policy => by cases policy <;> decide +kernel
  refine ⟨file, f, hread, hf, fun policy => ?_⟩
  obtain ⟨l, hl, hseen⟩ := hlower policy
  simp only [Prod.mk.injEq] at hseen
  obtain ⟨hexact, htext, hnames⟩ := hseen
  refine ⟨l, hl, hexact, htext, fun h => ?_⟩
  have hnone : (l.func.loops.flatMap fun t => Fragment.names t.post) = [] :=
    List.flatMap_eq_nil_iff.2 fun t ht => List.filterMap_eq_nil_iff.2 (h t ht)
  rw [hnames] at hnone
  cases hnone

end File

end Recast
