import Mathlib.Data.List.Forall2
import Recast.Proofs.Chained
import Recast.Proofs.Outline
import Recast.Proofs.Supported

/-!
# Names resolve in the text

The scopes of a lowering and the regions of the text that it writes stay in step, though not every
scope has a region and not every region a scope (`Scope.Matches`, `Scope.Around`). So the names that
a pair of `:=` can see are those declared in the regions that are open where the pair is written,
and it becomes an assignment exactly if its name is one of them (`pairs_resolve`).
-/

namespace Recast

open Target (Fragment Entry Regions)

variable {src : Source} {policy : ScopePolicy}

/-! ## Pairs of a tree -/

/-- The pairs of a `:=` whose names are not blank. -/
def Stmt.pairs : Stmt → List (Ident × Expr)
  | .assign lhs .define rhs _ =>
    (lhs.zip rhs).filterMap fun (l, r) =>
      l.name?.bind fun x => if x.isBlank then none else some (x, r)
  | _ => []

/-- The pairs of a block, at every depth. -/
def Block.pairs (b : Block) : List (Ident × Expr) := b.nested.flatMap Stmt.pairs

/-- The pairs of a function. -/
def Func.pairs (f : Func) : List (Ident × Expr) := f.body.elim [] Block.pairs

theorem Stmt.cond_pairs {init : Option Stmt} {test : Expr} {body : Block} {other : Option Stmt}
    {span : Span} : (Stmt.cond init test body other span).nested.flatMap Stmt.pairs
      = init.toList.flatMap Stmt.pairs
        ++ (body.pairs ++ (Stmt.otherNested other).flatMap Stmt.pairs) := by
  rw [Stmt.nested, List.flatMap_cons, List.flatMap_append, List.flatMap_append, List.append_assoc]
  rfl

/-- The statement is neither a `:=` nor a declaration. -/
def Stmt.isPlain : Stmt → Bool
  | .assign _ op _ _ => op != .define
  | .decl .. => false
  | _ => true

theorem Stmt.pairs_plain {s : Option Stmt} (hs : ∀ t ∈ s, t.isPlain = true) :
    s.toList.flatMap Stmt.pairs = [] := by
  cases s with
  | none => rfl
  | some s =>
    have hp := hs s rfl
    rw [Option.toList_some, List.flatMap_singleton]
    unfold Stmt.pairs
    split
    · cases hp
    · rfl

/-- The last clause in the header of a loop declares nothing. -/
def Stmt.PostPlain : Stmt → Prop
  | .loop _ _ post _ _ => ∀ s ∈ post, s.isPlain = true
  | _ => True

theorem Stmt.cond_postPlain {init : Option Stmt} {test : Expr} {body : Block}
    {other : Option Stmt} {span : Span}
    (h : ∀ s ∈ (Stmt.cond init test body other span).nested, s.PostPlain) :
    (∀ s ∈ body.nested, s.PostPlain) ∧ ∀ s ∈ Stmt.otherNested other, s.PostPlain := by
  rw [Stmt.nested] at h
  simp only [List.forall_mem_cons, List.forall_mem_append] at h
  exact ⟨h.2.1.2, h.2.2⟩

theorem Stmt.loop_pairs {init : Option Stmt} {test : Option Expr} {post : Option Stmt}
    {body : Block} {span : Span} (hpost : ∀ s ∈ post, s.isPlain = true) :
    (Stmt.loop init test post body span).nested.flatMap Stmt.pairs
      = init.toList.flatMap Stmt.pairs ++ body.pairs := by
  rw [Stmt.nested, List.flatMap_cons, List.flatMap_append, List.flatMap_append, pairs_plain hpost,
    List.append_nil]
  rfl

/-! ## Fragments of pairs -/

namespace Target.Entry

/-- The fragment of a pair. -/
def pair? : Entry → Option Fragment
  | .piece (.fragment f) => if f.isPair then some f else none
  | _ => none

/-- The fragments of pairs, in order, each with the regions that are open where it stands. -/
def sites (rs : Regions) : List Entry → List (Regions × Fragment)
  | [] => []
  | p :: ps => (p.pair?.map fun f => (rs, f)).toList ++ sites (step rs p) ps

theorem sites_append {rs : Regions} {ps qs : List Entry} :
    sites rs (ps ++ qs) = sites rs ps ++ sites (opened rs ps) qs := by
  induction ps generalizing rs with
  | nil => rfl
  | cons p ps ih => rw [List.cons_append, sites, sites, ih, opened_cons, List.append_assoc]

/-- An entry that declares nothing and comes from no pair. -/
def Idle : Entry → Prop
  | .piece (.fragment f) => f.isPair = false ∧ f.declared? = none
  | .piece _ => True
  | _ => False

namespace Idle

variable {p : Entry}

theorem step_eq (h : p.Idle) (rs : Regions) : step rs p = rs := by
  cases p with
  | piece q =>
    cases q with
    | fragment f =>
      rw [step, h.2]
      rfl
    | glue | expr => rfl
  | enter | leave | param => exact h.elim

theorem pair?_eq (h : p.Idle) : p.pair? = none := by
  cases p with
  | piece q =>
    cases q with
    | fragment f => exact if_neg (by rw [h.1]; exact Bool.false_ne_true)
    | glue | expr => rfl
  | enter | leave | param => exact h.elim

end Idle

end Target.Entry

/-! ## Entries laid out -/

/-- Where a name is declared its pair becomes an assignment to it, and a declaration of it where it
is not, of the value lowered. -/
def Resolves (src : Source) (policy : ScopePolicy) (pair : Ident × Expr)
    (site : Regions × Fragment) : Prop :=
  ∃ v lost, pair.2.lower src = ⟨.ok v, lost⟩ ∧
    (site.1.Declares policy pair.1.name ∧ site.2 = .rebind pair.1.name v ∨
      ¬ site.1.Declares policy pair.1.name ∧ site.2 = .bind pair.1.name v)

/-- Entries written for some pairs, between the regions that are open before them and those that
are open after them. -/
structure Laid (src : Source) (policy : ScopePolicy) (pairs : List (Ident × Expr)) (rs : Regions)
    (ps : List Entry) (rs' : Regions) : Prop where
  opened : Entry.opened rs ps = rs'
  resolves : List.Forall₂ (Resolves src policy) pairs (Entry.sites rs ps)

namespace Laid

variable {xs ys : List (Ident × Expr)} {rs rs' rs'' : Regions} {ps qs : List Entry}

theorem nil (rs : Regions) : Laid src policy [] rs [] rs := ⟨rfl, .nil⟩

theorem append (h : Laid src policy xs rs ps rs') (k : Laid src policy ys rs' qs rs'') :
    Laid src policy (xs ++ ys) rs (ps ++ qs) rs'' := by
  obtain ⟨rfl, hm⟩ := h
  refine ⟨?_, ?_⟩
  · rw [Entry.opened_append, k.opened]
  · rw [Entry.sites_append]
    exact List.rel_append hm k.resolves

/-- An entry before others. -/
theorem idle_cons {p : Entry} (hp : p.Idle) (h : Laid src policy xs rs ps rs') :
    Laid src policy xs rs (p :: ps) rs' := by
  obtain ⟨ho, hm⟩ := h
  refine ⟨?_, ?_⟩
  · rw [Entry.opened_cons, hp.step_eq, ho]
  · rwa [Entry.sites, hp.pair?_eq, hp.step_eq]

theorem idle (hp : ∀ p ∈ ps, p.Idle) (rs : Regions) : Laid src policy [] rs ps rs := by
  induction ps with
  | nil => exact .nil rs
  | cons p ps ih =>
    obtain ⟨h, hps⟩ := List.forall_mem_cons.1 hp
    exact .idle_cons h (ih hps)

theorem append_idle (h : Laid src policy xs rs ps rs') (hq : ∀ q ∈ qs, q.Idle) :
    Laid src policy xs rs (ps ++ qs) rs' := by
  have := h.append (idle hq rs')
  rwa [List.append_nil] at this

/-- Entries in a region of their own. -/
theorem region (r : Target.Region) {top : List String}
    (h : Laid src policy xs ([] :: rs) ps (top :: rs)) :
    Laid src policy xs rs (Entry.region r ps) rs := by
  obtain ⟨ho, hm⟩ := h
  refine ⟨?_, ?_⟩
  · rw [Entry.region, Entry.opened_cons, Entry.opened_append, Entry.step, ho]
    rfl
  · have hsites : Entry.sites rs (Entry.region r ps) = Entry.sites ([] :: rs) ps := by
      change Entry.sites ([] :: rs) (ps ++ [.leave r]) = _
      rw [Entry.sites_append]
      exact List.append_nil _
    rwa [hsites]

/-- A fragment in a header in place of its line. -/
theorem of_line {f : Fragment}
    (h : Laid src policy xs rs (Entry.ofPieces (Target.Piece.lines [f])) rs') :
    Laid src policy xs rs (Entry.ofPieces [.fragment f]) rs' := by
  obtain ⟨ho, hm⟩ := h
  exact ⟨ho, hm⟩

theorem param_iff {type : Primitive} {n : String} :
    Laid src policy xs rs (.param type n :: ps) rs' ↔ Laid src policy xs (rs.declare n) ps rs' := by
  constructor
  · intro h
    exact ⟨h.opened, h.resolves⟩
  · intro h
    exact ⟨h.opened, h.resolves⟩

/-- What is between parameters makes no difference. -/
theorem params {params : List (Primitive × String)}
    (h : Laid src policy xs rs (params.map fun p => .param p.1 p.2) rs') :
    Laid src policy xs rs (Entry.params params) rs' := by
  induction params generalizing rs with
  | nil => exact h
  | cons p params ih =>
    rw [List.map_cons, param_iff] at h
    cases params with
    | nil => exact param_iff.2 h
    | cons q params => exact param_iff.2 (.idle_cons trivial (ih h))

end Laid

/-! ## Scopes and regions -/

/-- From a scope the names can be seen that open regions declare. The blank name is apart, since a
parameter may be called so. -/
structure Scope.Matches (s : Scope) (policy : ScopePolicy) (rs : Regions) : Prop where
  policy_eq : s.policy = policy
  seen : ∀ n, n ≠ "_" → (s.isDeclared n = true ↔ rs.Declares policy n)

/-- What can be seen from a level inside a scope is what open regions declare around a new one. An
isolated level sees nothing, so it does not matter which these are. -/
structure Scope.Around (s : Scope) (policy : ScopePolicy) (rs : Regions) : Prop where
  policy_eq : s.policy = policy
  seen : policy = .chained → ∀ n, n ≠ "_" → (s.isDeclared n = true ↔ rs.Declares policy n)

namespace Scope

variable {s : Scope} {rs : Regions}

theorem Matches.around (h : s.Matches policy rs) : s.Around policy rs :=
  ⟨h.policy_eq, fun _ => h.seen⟩

/-- A level that has a region. -/
theorem Around.child_matches (h : s.Around policy rs) : s.child.Matches policy ([] :: rs) := by
  refine ⟨by rw [child_policy, h.policy_eq], ?_⟩
  intro n hn
  rw [isDeclared_child, Regions.declares_enter, h.policy_eq]
  apply and_congr_right
  intro hc
  exact h.seen hc n hn

/-- A level without a region, inside which only other levels are written. -/
theorem Around.child (h : s.Around policy rs) : s.child.Around policy rs := by
  refine ⟨by rw [child_policy, h.policy_eq], ?_⟩
  intro hc n hn
  rw [isDeclared_child, h.policy_eq, h.seen hc n hn]
  simp [hc]

/-- A region without a level. -/
theorem Around.enter (h : s.Around policy rs) : s.Around policy ([] :: rs) := by
  refine ⟨h.policy_eq, ?_⟩
  intro hc n hn
  rw [Regions.declares_enter, h.seen hc n hn]
  simp [hc]

end Scope

theorem Scope.Matches.declaring {p : Progress} {rs : Regions} (h : p.scope.Matches policy rs)
    (n : String) : (p.declaring n).scope.Matches policy (rs.declare n) := by
  refine ⟨h.policy_eq, ?_⟩
  intro m hm
  rw [Beside.declaring_isDeclared, Regions.declares_declare, h.seen m hm]

/-- Declaring a blank name changes nothing that can be seen. -/
theorem Scope.Matches.declare {s s' : Scope} {rs : Regions} {x : Ident} (h : s.Matches policy rs)
    (hs : s.declare? x = some s') : s'.Matches policy (rs.declare x.name) := by
  unfold Scope.declare? at hs
  split at hs
  · rename_i hb
    cases hs
    refine ⟨h.policy_eq, ?_⟩
    intro m hm
    have hx : m ≠ x.name := by
      rintro rfl
      exact hm (by simpa [Ident.isBlank] using hb)
    rw [Regions.declares_declare, h.seen m hm, or_iff_right hx]
  · split at hs
    · cases hs
    · cases hs
      exact Matches.declaring (p := ⟨s, []⟩) h x.name

/-- Entries written by a run inside a region: what is declared in the region is declared in the
scope. -/
def Lays (src : Source) (policy : ScopePolicy) (pairs : List (Ident × Expr)) (p q : Progress)
    (ps : List Entry) : Prop :=
  ∀ top rs, p.scope.Matches policy (top :: rs) →
    ∃ top', Laid src policy pairs (top :: rs) ps (top' :: rs) ∧
      q.scope.Matches policy (top' :: rs)

/-- Entries that are regions of their own, written at a scope. -/
def Keeps (src : Source) (policy : ScopePolicy) (pairs : List (Ident × Expr)) (s : Scope)
    (ps : List Entry) : Prop :=
  ∀ rs, s.Around policy rs → Laid src policy pairs rs ps rs

section Lays

variable {xs ys : List (Ident × Expr)} {p q r : Progress} {ps qs : List Entry}

theorem Lays.trans (h : Lays src policy xs p q ps) (k : Lays src policy ys q r qs) :
    Lays src policy (xs ++ ys) p r (ps ++ qs) := by
  intro top rs hp
  obtain ⟨top', hl, hq⟩ := h top rs hp
  obtain ⟨top'', hm, hr⟩ := k top' rs hq
  exact ⟨top'', hl.append hm, hr⟩

theorem Lays.idle (hs : q.scope = p.scope) (hp : ∀ a ∈ ps, a.Idle) :
    Lays src policy [] p q ps := by
  intro top rs hm
  refine ⟨top, .idle hp _, ?_⟩
  rwa [hs]

theorem Keeps.lays (h : Keeps src policy xs p.scope ps) (hs : q.scope = p.scope) :
    Lays src policy xs p q ps := by
  intro top rs hm
  refine ⟨top, h _ hm.around, ?_⟩
  rwa [hs]

theorem Keeps.append {s : Scope} (h : Keeps src policy xs s ps) (k : Keeps src policy ys s qs) :
    Keeps src policy (xs ++ ys) s (ps ++ qs) :=
  fun rs hs => (h rs hs).append (k rs hs)

theorem Keeps.idle (s : Scope) (hp : ∀ a ∈ ps, a.Idle) : Keeps src policy [] s ps :=
  fun _ _ => .idle hp _

theorem Keeps.idle_cons {s : Scope} {a : Entry} (ha : a.Idle) (h : Keeps src policy xs s ps) :
    Keeps src policy xs s (a :: ps) :=
  fun rs hs => .idle_cons ha (h rs hs)

theorem Keeps.append_idle {s : Scope} (h : Keeps src policy xs s ps) (hq : ∀ a ∈ qs, a.Idle) :
    Keeps src policy xs s (ps ++ qs) :=
  fun rs hs => (h rs hs).append_idle hq

/-- A level that is a region. -/
theorem Lays.region (t : Target.Region) (h : Lays src policy xs p.inner q ps) :
    Keeps src policy xs p.scope (Entry.region t ps) := by
  intro _ hs
  obtain ⟨top, hl, -⟩ := h [] _ hs.child_matches
  exact hl.region t

/-- A level without a region. -/
theorem Keeps.of_child {s : Scope} (h : Keeps src policy xs s.child ps) :
    Keeps src policy xs s ps :=
  fun rs hs => h rs hs.child

/-- A region without a level. -/
theorem Keeps.region {s : Scope} (t : Target.Region) (h : Keeps src policy xs s ps) :
    Keeps src policy xs s (Entry.region t ps) :=
  fun _ hs => (h _ hs.enter).region t

end Lays

/-! ## Simple statements -/

section Simple

variable {p q : Progress}

theorem lines_idle {fs : List Fragment} (h : ∀ f ∈ fs, f.isPair = false ∧ f.declared? = none) :
    ∀ a ∈ Entry.ofPieces (Target.Piece.lines fs), a.Idle := by
  intro a ha
  obtain ⟨b, hb, rfl⟩ := List.mem_map.1 ha
  obtain ⟨f, hf, hb⟩ := List.mem_flatMap.1 hb
  rcases List.mem_cons.1 hb with rfl | hb
  · exact h f hf
  · cases List.mem_singleton.1 hb
    trivial

theorem lines_cons (f : Fragment) (fs : List Fragment) :
    Entry.ofPieces (Target.Piece.lines (f :: fs))
      = Entry.ofPieces (Target.Piece.lines [f]) ++ Entry.ofPieces (Target.Piece.lines fs) := rfl

theorem lines_append (fs gs : List Fragment) :
    Entry.ofPieces (Target.Piece.lines (fs ++ gs))
      = Entry.ofPieces (Target.Piece.lines fs) ++ Entry.ofPieces (Target.Piece.lines gs) := by
  simp [Entry.ofPieces, Target.Piece.lines]

theorem lowerBinding_lays {x : Ident} {rhs : Expr} {f : Fragment}
    (h : (lowerBinding src x rhs).runFrom p = (.ok f, q)) :
    Lays src policy (if x.isBlank then [] else [(x, rhs)]) p q
      (Entry.ofPieces (Target.Piece.lines [f])) := by
  cases lowerBinding_ok h with
  | discard hb hv =>
    rw [if_pos hb]
    refine .idle (Lowering.expr_scope hv) (lines_idle ?_)
    simp [Target.Fragment.isPair, Target.Fragment.declared?]
  | @rebind value _ hb hd hv =>
    rw [hb, if_neg Bool.false_ne_true]
    intro top rs hm
    have hx : x.name ≠ "_" := by simpa [Ident.isBlank] using hb
    obtain ⟨lost, hl, -⟩ := Lowering.expr_ok.1 hv
    refine ⟨top, ⟨rfl, .cons ?_ .nil⟩, ?_⟩
    · exact ⟨value, lost, hl, .inl ⟨(hm.seen _ hx).1 hd, rfl⟩⟩
    · rwa [Lowering.expr_scope hv]
  | @bind value r hb hd hv =>
    rw [hb, if_neg Bool.false_ne_true]
    intro top rs hm
    have hx : x.name ≠ "_" := by simpa [Ident.isBlank] using hb
    have hunseen : ¬ Regions.Declares policy (top :: rs) x.name := by
      rw [← hm.seen _ hx, hd]
      exact Bool.false_ne_true
    obtain ⟨lost, hl, -⟩ := Lowering.expr_ok.1 hv
    refine ⟨x.name :: top, ⟨rfl, .cons ?_ .nil⟩, ?_⟩
    · exact ⟨value, lost, hl, .inr ⟨hunseen, rfl⟩⟩
    · have hr : r.scope.Matches policy (top :: rs) := by rwa [Lowering.expr_scope hv]
      exact hr.declaring x.name

theorem lowerBindings_lays {pairs : List (Ident × Expr)} {fs : List Fragment}
    (h : (lowerBindings src pairs).runFrom p = (.ok fs, q)) :
    Lays src policy (pairs.filter fun pair => !pair.1.isBlank) p q
      (Entry.ofPieces (Target.Piece.lines fs)) := by
  induction pairs generalizing p fs with
  | nil =>
    obtain ⟨rfl, rfl⟩ := Lowering.pure_ok.1 h
    exact .idle rfl (List.forall_mem_nil _)
  | cons pair pairs ih =>
    obtain ⟨f, r, gs, hf, hgs, rfl⟩ := lowerBindings_cons_ok.1 h
    have hsplit : (pair :: pairs).filter (fun pair => !pair.1.isBlank)
        = (if pair.1.isBlank then [] else [pair]) ++ pairs.filter fun pair => !pair.1.isBlank := by
      cases hb : pair.1.isBlank <;> simp [hb]
    rw [hsplit, lines_cons]
    exact (lowerBinding_lays hf).trans (ih hgs)

/-- Names of a `var` or `const`: the entries declare what the scope does. -/
theorem lowerName_lays {kind : DeclKind} {type : Option Primitive} {x : Ident} {v : Option Expr}
    {fs : List Fragment} (h : (lowerName src kind type x v).runFrom p = (.ok fs, q)) :
    Lays src policy [] p q (Entry.ofPieces (Target.Piece.lines fs)) := by
  cases lowerName_ok h with
  | skip hb hq =>
    subst hq
    exact .idle rfl (List.forall_mem_nil _)
  | discard hb hv =>
    refine .idle (Lowering.expr_scope hv) (lines_idle ?_)
    simp [Target.Fragment.isPair, Target.Fragment.declared?]
  | declare hb hd hv =>
    intro top rs hm
    refine ⟨x.name :: top, ⟨rfl, .nil⟩, ?_⟩
    rw [Lowering.optionExpr_scope hv]
    exact hm.declaring x.name

theorem lowerNames_lays {kind : DeclKind} {type : Option Primitive} {names : List Ident}
    {values : List Expr} {fs : List Fragment}
    (h : (lowerNames src kind type names values).runFrom p = (.ok fs, q)) :
    Lays src policy [] p q (Entry.ofPieces (Target.Piece.lines fs)) := by
  induction names generalizing p values fs with
  | nil =>
    obtain ⟨rfl, rfl⟩ := Lowering.pure_ok.1 h
    exact .idle rfl (List.forall_mem_nil _)
  | cons x names ih =>
    obtain ⟨gs, r, hs, hgs, hhs, rfl⟩ := lowerNames_cons_ok.1 h
    rw [lines_append]
    exact (lowerName_lays hgs).trans (ih hhs)

theorem lowerSpecs_lays {kind : DeclKind} {specs : List ValueSpec} {fs : List Fragment}
    (h : (lowerSpecs src kind specs).runFrom p = (.ok fs, q)) :
    Lays src policy [] p q (Entry.ofPieces (Target.Piece.lines fs)) := by
  induction specs generalizing p fs with
  | nil =>
    obtain ⟨rfl, rfl⟩ := Lowering.pure_ok.1 h
    exact .idle rfl (List.forall_mem_nil _)
  | cons spec specs ih =>
    obtain ⟨gs, r, hs, hgs, hhs, rfl⟩ := lowerSpecs_cons_ok.1 h
    obtain ⟨type, -, -, hnames⟩ := ValueSpec.lower_ok.1 hgs
    rw [lines_append]
    exact (lowerNames_lays hnames).trans (ih hhs)

/-- Assignments and steps declare nothing. -/
theorem lowerAssign_plain {op : Operator} {pairs : List (Expr × Expr)} {fs : List Fragment}
    (h : (lowerAssign src op pairs).runFrom p = (.ok fs, q)) :
    (∀ f ∈ fs, f.isPair = false ∧ f.declared? = none) ∧ q.scope = p.scope := by
  induction pairs generalizing p fs with
  | nil =>
    obtain ⟨rfl, rfl⟩ := Lowering.pure_ok.1 h
    exact ⟨List.forall_mem_nil _, rfl⟩
  | cons pair pairs ih =>
    obtain ⟨f, r, gs, hf, hgs, rfl⟩ := lowerAssign_cons_ok.1 h
    obtain ⟨hplain, hs⟩ := ih hgs
    cases lowerPair_ok hf with
    | discard hb hv =>
      exact ⟨List.forall_mem_cons.2 ⟨⟨rfl, rfl⟩, hplain⟩, hs.trans (Lowering.expr_scope hv)⟩
    | assign hb hv ht =>
      refine ⟨List.forall_mem_cons.2 ⟨⟨rfl, rfl⟩, hplain⟩, ?_⟩
      rw [hs, Lowering.expr_scope ht, Lowering.expr_scope hv]

theorem Stmt.lowerSimple_plain {s : Stmt} {fs : List Fragment} (hs : s.isPlain = true)
    (h : (s.lowerSimple src).runFrom p = (.ok fs, q)) :
    (∀ f ∈ fs, f.isPair = false ∧ f.declared? = none) ∧ q.scope = p.scope := by
  cases Stmt.lowerSimple_ok h with
  | define | decl => cases hs
  | assign hl ho hd h => exact lowerAssign_plain h
  | step hx =>
    refine ⟨?_, Lowering.expr_scope hx⟩
    simp [Target.Fragment.isPair, Target.Fragment.declared?]

/-- The pairs of a `:=` by its names. -/
theorem Stmt.pairs_define {lhs rhs : List Expr} {names : List Ident} {span : Span}
    (h : lhs.mapM Expr.name? = some names) :
    (Stmt.assign lhs .define rhs span).pairs
      = (names.zip rhs).filter fun pair => !pair.1.isBlank := by
  rw [Stmt.pairs]
  induction lhs generalizing names rhs with
  | nil =>
    cases h
    rfl
  | cons l lhs ih =>
    simp only [List.mapM_cons, Option.bind_eq_bind, Option.bind_eq_some_iff] at h
    obtain ⟨x, hx, xs, hxs, h⟩ := h
    cases h
    cases rhs with
    | nil => rfl
    | cons r rhs =>
      simp only [List.zip_cons_cons, List.filterMap_cons, hx, Option.bind_some, ih hxs]
      cases hb : x.isBlank <;> simp [hb]

theorem Stmt.lowerSimple_lays {s : Stmt} {fs : List Fragment}
    (h : (s.lowerSimple src).runFrom p = (.ok fs, q)) :
    Lays src policy s.pairs p q (Entry.ofPieces (Target.Piece.lines fs)) := by
  cases Stmt.lowerSimple_ok h with
  | define hl hn hr hb =>
    rw [Stmt.pairs_define hn]
    exact lowerBindings_lays hb
  | @assign lhs rhs op span fs hl ho hd ha =>
    obtain ⟨hplain, hs⟩ := lowerAssign_plain ha
    have hpairs : (Stmt.assign lhs op rhs span).pairs = [] := by
      unfold Stmt.pairs
      split
      · rename_i he
        cases he
        exact absurd rfl hd
      · rfl
    rw [hpairs]
    exact .idle hs (lines_idle hplain)
  | decl hd => exact lowerSpecs_lays hd
  | step hx =>
    refine .idle (Lowering.expr_scope hx) (lines_idle ?_)
    simp [Target.Fragment.isPair, Target.Fragment.declared?]

/-- A clause of a header, which may be missing. -/
theorem optionSimple_lays {s : Option Stmt} {fs : Option (List Fragment)}
    (h : (s.mapM (Stmt.lowerSimple src)).runFrom p = (.ok fs, q)) :
    Lays src policy (s.toList.flatMap Stmt.pairs) p q
      (Entry.ofPieces (Target.Piece.lines (fs.getD []))) := by
  cases s with
  | none =>
    obtain ⟨rfl, rfl⟩ := Lowering.mapM_none_ok.1 h
    exact .idle rfl (List.forall_mem_nil _)
  | some s =>
    obtain ⟨gs, hgs, rfl⟩ := Lowering.mapM_some_ok.1 h
    rw [Option.toList_some, List.flatMap_singleton]
    exact Stmt.lowerSimple_lays hgs

end Simple

/-! ## Statements and blocks -/

section Layout

variable {xs ys : List (Ident × Expr)} {p q : Progress}

theorem glue_idle (t : String) : ∀ a ∈ [Entry.glue t], a.Idle := by simp [Entry.Idle]

/-- The test of a conditional declares nothing, and its body leaves the scope as it was; so its
body and what follows the body are laid in the scope in which it begins. -/
theorem Keeps.conditional {test : Expr} {test' : Target.Expr} {block : Block}
    {block' : List Target.Stmt} {body other : List Entry}
    (ht : (Lowering.expr src test).runFrom p = (.ok test', q))
    (hb : (block.lower src).runFrom q = (.ok block', r))
    (h : Keeps src policy xs q.scope (Entry.region .braces body))
    (k : Keeps src policy ys r.scope other) :
    Keeps src policy (xs ++ ys) p.scope (Entry.conditional test' body other) := by
  rw [Block.lower_scope hb] at k
  rw [Lowering.expr_scope ht] at h k
  exact .idle_cons trivial (.idle_cons trivial (.idle_cons trivial (h.append k)))

/-- A level whose region is the braces around a statement. -/
theorem Lays.enclosed {fs : List Fragment} {inner : List Entry}
    (h : Lays src policy xs p.inner q (Entry.ofPieces (Target.Piece.lines fs)))
    (k : Keeps src policy ys q.scope inner) :
    Keeps src policy (xs ++ ys) p.scope (Entry.enclosed fs inner) := by
  have hinner := (k.append_idle (glue_idle "\n")).lays (q := q) rfl
  exact ((h.trans hinner).region .braces).append_idle (glue_idle "\n")

theorem clause_idle {fs : List Fragment} (h : ∀ f ∈ fs, f.isPair = false ∧ f.declared? = none) :
    ∀ a ∈ Entry.ofPieces (Target.Piece.clause fs), a.Idle := by
  induction fs with
  | nil => exact List.forall_mem_nil _
  | cons f fs ih =>
    obtain ⟨hf, hfs⟩ := List.forall_mem_cons.1 h
    cases fs with
    | nil => exact List.forall_mem_singleton.2 hf
    | cons g fs => exact List.forall_mem_cons.2 ⟨hf, List.forall_mem_cons.2 ⟨trivial, ih hfs⟩⟩

/-- What is between the first clause of a header and the body. -/
theorem header_idle (test : Option Target.Expr) {post : List Fragment}
    (hpost : ∀ f ∈ post, f.isPair = false ∧ f.declared? = none) :
    ∀ a ∈ Entry.ofPieces (.glue ";" :: (Target.Piece.test test ++ .glue ";"
      :: (Target.Piece.padded post ++ [.glue ") "]))), a.Idle := by
  have htest : ∀ a ∈ Entry.ofPieces (Target.Piece.test test), a.Idle := by
    cases test with
    | none => exact List.forall_mem_nil _
    | some x =>
      rw [Target.Piece.test]
      split <;> simp [Entry.ofPieces, Entry.Idle]
  have hpadded : ∀ a ∈ Entry.ofPieces (Target.Piece.padded post), a.Idle := by
    rw [Target.Piece.padded]
    split
    · exact List.forall_mem_nil _
    · exact List.forall_mem_cons.2 ⟨trivial, clause_idle hpost⟩
  simp only [Entry.ofPieces, List.map_cons, List.map_append, List.map_nil]
  refine List.forall_mem_cons.2 ⟨trivial, List.forall_mem_append.2 ⟨htest, ?_⟩⟩
  exact List.forall_mem_cons.2 ⟨trivial, List.forall_mem_append.2 ⟨hpadded, glue_idle _⟩⟩

/-- A level whose region is the header of a loop. -/
theorem Lays.loop {init : List Target.Piece} {test : Option Target.Expr} {post : List Fragment}
    {body : List Entry} (h : Lays src policy xs p.inner q (Entry.ofPieces init))
    (hpost : ∀ f ∈ post, f.isPair = false ∧ f.declared? = none)
    (k : Keeps src policy ys q.scope (Entry.region .braces body)) :
    Keeps src policy (xs ++ ys) p.scope (Entry.loop init test post body) := by
  have hbody := (Keeps.idle q.scope (header_idle test hpost)).append k
  have hinner := h.trans (hbody.lays (q := q) rfl)
  rw [Entry.loop, Entry.ofPieces, List.map_append, List.append_assoc]
  exact hinner.region .header

/-- A loop inside the level of its header. -/
theorem Keeps.loop {s : Scope} {test : Option Target.Expr} {post : List Fragment}
    {body : List Entry} (hpost : ∀ f ∈ post, f.isPair = false ∧ f.declared? = none)
    (k : Keeps src policy ys s (Entry.region .braces body)) :
    Keeps src policy ys s (Entry.loop [] test post body) :=
  ((Keeps.idle s (header_idle test hpost)).append k).region .header

/-- A loop has its level in the header, or in braces around it if its first clause is too long. -/
theorem Lays.loopStmt {init : List Fragment} {test : Option Target.Expr} {post : List Fragment}
    {body : List Target.Stmt}
    (h : Lays src policy xs p.inner q (Entry.ofPieces (Target.Piece.lines init)))
    (hpost : ∀ f ∈ post, f.isPair = false ∧ f.declared? = none)
    (k : Keeps src policy ys q.scope (Entry.region .braces (Target.Stmt.listOutline body))) :
    Keeps src policy (xs ++ ys) p.scope (Target.Stmt.loop init test post body).outline := by
  rcases init with _ | ⟨f, _ | ⟨g, fs⟩⟩
  · exact (Lays.loop h hpost k).append_idle (glue_idle "\n")
  · have hf : Lays src policy xs p.inner q (Entry.ofPieces [.fragment f]) := by
      intro top rs hm
      obtain ⟨top', hl, hq⟩ := h top rs hm
      exact ⟨top', hl.of_line, hq⟩
    exact (Lays.loop hf hpost k).append_idle (glue_idle "\n")
  · exact h.enclosed (k.loop hpost)

end Layout

section Runs

/-- A clause that is plain or missing. -/
theorem optionSimple_plain {s : Option Stmt} {fs : Option (List Fragment)} {p q : Progress}
    (hs : ∀ t ∈ s, t.isPlain = true)
    (h : (s.mapM (Stmt.lowerSimple src)).runFrom p = (.ok fs, q)) :
    (∀ f ∈ fs.getD [], f.isPair = false ∧ f.declared? = none) ∧ q.scope = p.scope := by
  cases s with
  | none =>
    obtain ⟨rfl, rfl⟩ := Lowering.mapM_none_ok.1 h
    exact ⟨List.forall_mem_nil _, rfl⟩
  | some s =>
    obtain ⟨gs, hgs, rfl⟩ := Lowering.mapM_some_ok.1 h
    exact Stmt.lowerSimple_plain (hs s rfl) hgs

mutual

theorem Stmt.lower_lays : ∀ (s : Stmt) {p q : Progress} {t : Target.Stmt},
    (∀ i ∈ s.nested, i.PostPlain) → (s.lower src).runFrom p = (.ok t, q) →
    Lays src policy (s.nested.flatMap Stmt.pairs) p q t.outline
  | .ret results span, p, q, t, hposts, h => by
    rcases Stmt.lower_ret_ok.1 h with ⟨-, rfl, rfl⟩ | ⟨v, x, -, hx, rfl⟩
    · exact .idle rfl (glue_idle _)
    · refine .idle (Lowering.expr_scope hx) ?_
      simp [Target.Stmt.outline, Entry.ofPieces, Entry.Idle]
  | .unsupported span, p, q, t, hposts, h => absurd h Stmt.lower_unsupported_ok
  | .assign lhs op rhs span, p, q, t, hposts, h | .decl kind specs span, p, q, t, hposts, h
  | .step operand op span, p, q, t, hposts, h => by
    obtain ⟨fs, hfs, rfl⟩ := (Stmt.lower_simple_ok rfl).1 h
    rw [Stmt.nested, List.flatMap_singleton, Target.Stmt.outline]
    exact Stmt.lowerSimple_lays hfs
  | .cond init test body other span, p, q, t, hposts, h => by
    obtain ⟨init', p₁, test', p₂, body', p₃, other', p₄, hi, ht, hb, ho, rfl, rfl⟩ :=
      Stmt.lower_cond_ok.1 h
    obtain ⟨hpb, hpo⟩ := Stmt.cond_postPlain hposts
    have hinner := Keeps.conditional ht hb (Block.lower_keeps body hpb hb)
      (Stmt.lowerOther_keeps other hpo ho)
    rw [Stmt.cond_pairs]
    cases init with
    | none =>
      obtain ⟨rfl, rfl⟩ := Lowering.mapM_none_ok.1 hi
      exact (hinner.of_child.append_idle (glue_idle "\n")).lays rfl
    | some init =>
      obtain ⟨fs, hfs, rfl⟩ := Lowering.mapM_some_ok.1 hi
      rw [Option.toList_some, List.flatMap_singleton]
      exact (Lays.enclosed (Stmt.lowerSimple_lays hfs) hinner).lays rfl
  | .loop init test post body span, p, q, t, hposts, h => by
    obtain ⟨init', p₁, test', p₂, post', p₃, body', p₄, hi, ht, hp, hb, rfl, rfl⟩ :=
      Stmt.lower_loop_ok.1 h
    rw [Stmt.nested] at hposts
    simp only [List.forall_mem_cons, List.forall_mem_append] at hposts
    obtain ⟨hpost, -, hpb⟩ := hposts
    obtain ⟨hplain, hs⟩ := optionSimple_plain hpost hp
    have hbody := Block.lower_keeps body hpb hb
    rw [hs, Lowering.optionExpr_scope ht] at hbody
    rw [Stmt.loop_pairs hpost]
    exact (Lays.loopStmt (optionSimple_lays hi) hplain hbody).lays rfl
  | .block body, p, q, t, hposts, h => by
    obtain ⟨body', hb, rfl⟩ := Stmt.lower_block_ok.1 h
    rw [Stmt.nested] at hposts ⊢
    obtain ⟨-, hpb⟩ := List.forall_mem_cons.1 hposts
    rw [List.flatMap_cons, Target.Stmt.outline]
    have hbody := Block.lower_keeps body hpb hb
    exact (hbody.append_idle (glue_idle "\n")).lays (Block.lower_scope hb)

theorem Stmt.lowerOther_keeps : ∀ (other : Option Stmt) {p q : Progress} {b : Target.Branch},
    (∀ i ∈ Stmt.otherNested other, i.PostPlain) →
    (Stmt.lowerOther src other).runFrom p = (.ok b, q) →
    Keeps src policy ((Stmt.otherNested other).flatMap Stmt.pairs) p.scope b.outline
  | none, p, q, b, hposts, h => by
    obtain ⟨rfl, rfl⟩ := Stmt.lowerOther_none_ok.1 h
    exact .idle _ (List.forall_mem_nil _)
  | some (.block body), p, q, b, hposts, h => by
    obtain ⟨body', hb, rfl⟩ := Stmt.lowerOther_block_ok.1 h
    rw [Stmt.otherNested, Stmt.nested] at hposts ⊢
    obtain ⟨-, hpb⟩ := List.forall_mem_cons.1 hposts
    rw [List.flatMap_cons, Target.Branch.outline]
    exact .idle_cons trivial (Block.lower_keeps body hpb hb)
  | some (.cond none test body other span), p, q, b, hposts, h => by
    obtain ⟨test', p₁, body', p₂, other', ht, hb, ho, rfl⟩ := Stmt.lowerOther_chain_ok.1 h
    obtain ⟨hpb, hpo⟩ := Stmt.cond_postPlain hposts
    have hinner := Keeps.conditional ht hb (Block.lower_keeps body hpb hb)
      (Stmt.lowerOther_keeps other hpo ho)
    rw [Stmt.otherNested, Stmt.cond_pairs]
    exact .idle_cons trivial hinner
  | some (.cond (some init) test body other span), p, q, b, hposts, h => by
    obtain ⟨init', p₁, test', p₂, body', p₃, other', p₄, hi, ht, hb, ho, rfl, rfl⟩ :=
      Stmt.lowerOther_wrapped_ok.1 h
    obtain ⟨hpb, hpo⟩ := Stmt.cond_postPlain hposts
    have hinner := Keeps.conditional ht hb (Block.lower_keeps body hpb hb)
      (Stmt.lowerOther_keeps other hpo ho)
    have henclosed := Lays.enclosed (Stmt.lowerSimple_lays hi) hinner
    rw [Stmt.otherNested, Stmt.cond_pairs, Option.toList_some, List.flatMap_singleton]
    exact .idle_cons trivial (henclosed.region .braces)
  | some (.ret ..), p, q, b, hposts, h | some (.assign ..), p, q, b, hposts, h
  | some (.decl ..), p, q, b, hposts, h | some (.step ..), p, q, b, hposts, h
  | some (.loop ..), p, q, b, hposts, h | some (.unsupported _), p, q, b, hposts, h =>
    absurd h Lowering.reject_ok

theorem Stmt.lowerList_lays : ∀ (ss : List Stmt) {p q : Progress} {ts : List Target.Stmt},
    (∀ i ∈ Stmt.listNested ss, i.PostPlain) →
    (Stmt.lowerList src ss).runFrom p = (.ok ts, q) →
    Lays src policy ((Stmt.listNested ss).flatMap Stmt.pairs) p q (Target.Stmt.listOutline ts)
  | [], p, q, ts, hposts, h => by
    obtain ⟨rfl, rfl⟩ := Stmt.lowerList_nil_ok.1 h
    exact .idle rfl (List.forall_mem_nil _)
  | s :: ss, p, q, ts, hposts, h => by
    obtain ⟨t, r, us, ht, hu, rfl⟩ := Stmt.lowerList_cons_ok.1 h
    rw [Stmt.listNested] at hposts ⊢
    obtain ⟨hps, hpss⟩ := List.forall_mem_append.1 hposts
    rw [List.flatMap_append, Target.Stmt.listOutline]
    exact (Stmt.lower_lays s hps ht).trans (Stmt.lowerList_lays ss hpss hu)

theorem Block.lower_keeps : ∀ (b : Block) {p q : Progress} {ts : List Target.Stmt},
    (∀ i ∈ b.nested, i.PostPlain) → (b.lower src).runFrom p = (.ok ts, q) →
    Keeps src policy b.pairs p.scope (Entry.region .braces (Target.Stmt.listOutline ts))
  | .mk ss span, p, q, ts, hposts, h => by
    obtain ⟨r, hr, rfl⟩ := Block.lower_ok.1 h
    exact (Stmt.lowerList_lays ss hposts hr).region .braces

end

end Runs

/-! ## Functions -/

section Functions

variable {p q : Progress}

theorem lowerParamNames_lays {type : Primitive} {names : List Ident}
    {params : List (Primitive × String)}
    (h : (lowerParamNames type names).runFrom p = (.ok params, q)) :
    Lays src policy [] p q (params.map fun p => .param p.1 p.2) := by
  induction names generalizing p params with
  | nil =>
    obtain ⟨rfl, rfl⟩ := Lowering.pure_ok.1 h
    exact .idle rfl (List.forall_mem_nil _)
  | cons x names ih =>
    obtain ⟨s, rest, hs, hrest, rfl⟩ := lowerParamNames_cons_ok.1 h
    intro top rs hm
    obtain ⟨top', hl, hq⟩ := ih hrest _ _ (hm.declare hs)
    exact ⟨top', Laid.param_iff.2 hl, hq⟩

theorem lowerParams_lays {fields : List Field} {params : List (Primitive × String)}
    (h : (lowerParams src fields).runFrom p = (.ok params, q)) :
    Lays src policy [] p q (params.map fun p => .param p.1 p.2) := by
  induction fields generalizing p params with
  | nil =>
    obtain ⟨rfl, rfl⟩ := Lowering.pure_ok.1 h
    exact .idle rfl (List.forall_mem_nil _)
  | cons field fields ih =>
    obtain ⟨ps, r, qs, hps, hqs, rfl⟩ := lowerParams_cons_ok.1 h
    obtain ⟨type, -, -, hnames⟩ := Field.lowerParam_ok.1 hps
    rw [List.map_append]
    exact (lowerParamNames_lays hnames).trans (ih hqs)

theorem Scope.root_matches : (Scope.root policy).Matches policy [[]] := by
  refine ⟨rfl, ?_⟩
  intro n hn
  cases policy <;> simp [Scope.root, Scope.isDeclared, Scope.isDeclaredHere, Regions.Declares]

theorem bodyOrNil_keeps {body : Option Block} {ts : List Target.Stmt}
    (hposts : ∀ b ∈ body, ∀ s ∈ b.nested, s.PostPlain)
    (h : (body.elim (pure []) (Block.lower src)).runFrom p = (.ok ts, q)) :
    Keeps src policy (body.elim [] Block.pairs) p.scope
      (Entry.region .braces (Target.Stmt.listOutline ts)) := by
  cases body with
  | none =>
    obtain ⟨rfl, rfl⟩ := Lowering.pure_ok.1 h
    exact (Keeps.idle _ (List.forall_mem_nil _)).region .braces
  | some b => exact Block.lower_keeps b (hposts b rfl) h

theorem Func.lower_laid {f : Func} {l : Func.Lowered} (h : f.lower src policy = .ok l)
    (hposts : ∀ b ∈ f.body, ∀ s ∈ b.nested, s.PostPlain) :
    Laid src policy f.pairs [] l.func.outline [] := by
  obtain ⟨q, hq, -⟩ := Func.lower_ok.1 h
  obtain ⟨result, params, r, body, -, hp, hb, hl⟩ := Func.lowerParts_ok.1 hq
  rw [hl]
  obtain ⟨top, hparams, hm⟩ := lowerParams_lays hp [] [] Scope.root_matches
  have hbody := bodyOrNil_keeps hposts hb _ hm.around
  have hinner := hparams.params.append (.idle_cons (p := Entry.glue ") ") trivial hbody)
  exact .idle_cons trivial ((hinner.region .params).append_idle (glue_idle "\n"))

end Functions

/-- Names resolve in the text: the entries of its outline make it up, and of the pairs of `:=` whose
names are not blank each one becomes an assignment if its name is declared in the regions that are
open where it stands, and a declaration if it is not. -/
theorem pairs_resolve {f : Func} {l : Func.Lowered} (h : f.lower src policy = .ok l)
    (hposts : ∀ b ∈ f.body, ∀ s ∈ b.nested, s.PostPlain) :
    l.text = Entry.join l.func.outline ∧
      List.Forall₂ (Resolves src policy) f.pairs (Entry.sites [] l.func.outline) :=
  ⟨l.func.text_eq_outline, (Func.lower_laid h hposts).resolves⟩

/-- In the body of the `if` the regions are its own braces, those around it, which hold the header,
those of the function and the parameters. -/
theorem pairs_resolve_nested :
    ∃ l, Func.nested.lower ⟨""⟩ .chained = .ok l ∧
      (∀ b ∈ Func.nested.body, ∀ s ∈ b.nested, s.PostPlain) ∧
      List.Forall₂ (Resolves ⟨""⟩ .chained) Func.nested.pairs (Entry.sites [] l.func.outline) ∧
      Entry.sites [] l.func.outline =
        [([[], []], .bind "x" (.literal "1")),
          ([[], ["x"], []], .bind "y" (.name "x")),
          ([[], ["y"], ["x"], []], .rebind "x" (.literal "2")),
          ([[], ["y"], ["x"], []], .bind "z" (.literal "4"))] := by
  have hposts : ∀ b ∈ Func.nested.body, ∀ s ∈ b.nested, s.PostPlain := by
    intro b hb
    cases hb
    simp [Block.nested, Stmt.listNested, Stmt.nested, Stmt.otherNested, Stmt.PostPlain]
  refine ⟨_, rfl, hposts, (pairs_resolve rfl hposts).2, by decide⟩

end Recast
