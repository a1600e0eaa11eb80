import Recast.Proofs.Bindings

/-!
# What a statement adds to its level

A statement that fails keeps the names that it declared until then. So the names that a step would
declare are told in order, and what is left behind is the scope grown by all of them if it succeeds
and by some first ones if it fails (`Lowering.Declares`). A step at a level of its own declares
nothing whichever way it ends, so only `:=`, `var` and `const` have an effect on their level
(`scope_effect`).
-/

namespace Recast

open Target (Fragment)

/-! ## Adding names to a scope -/

namespace Scope

/-- `t` is `s` after the declaration of exactly these names, one after the other. -/
def Adds (s t : Scope) (names : Set String) : Prop :=
  ∃ added, s.Grows t added ∧ {n | n ∈ added} = names

theorem Grows.adds {s t : Scope} {names : List String} (h : s.Grows t names) :
    s.Adds t {n | n ∈ names} :=
  ⟨names, h, rfl⟩

theorem Grows.eq_of_nil {s t : Scope} (h : s.Grows t []) : t = s := h.eq

theorem Adds.trans {s t u : Scope} {ms ns : Set String} (h : s.Adds t ms) (k : t.Adds u ns) :
    s.Adds u (ms ∪ ns) := by
  obtain ⟨added, hgrows, rfl⟩ := h
  obtain ⟨added', hgrows', rfl⟩ := k
  refine ⟨added ++ added', hgrows.trans hgrows', ?_⟩
  ext n
  simp

/-- The names among these that a `:=` adds: those that cannot be seen before it. -/
def newAmong (s : Scope) (names : List Ident) : Set String :=
  {n | n ∈ Ident.visible names ∧ s.isDeclared n = false}

theorem define_adds (s : Scope) (x : Ident) : s.Adds (s.define x) (s.newAmong [x]) := by
  by_cases hb : x.isBlank = true
  · rw [define_of_blank hb]
    refine ⟨[], .refl s, ?_⟩
    simp [newAmong, Ident.visible_of_blank hb]
  · rw [Bool.not_eq_true] at hb
    by_cases hd : s.isDeclared x.name = true
    · rw [define_of_seen hd]
      refine ⟨[], .refl s, ?_⟩
      ext n
      simp only [newAmong, Ident.visible_of_not_blank hb, List.mem_singleton]
      constructor
      · intro h
        cases h
      · rintro ⟨rfl, hn⟩
        rw [hd] at hn
        cases hn
    · rw [Bool.not_eq_true] at hd
      rw [define_of_new hb hd]
      have hgrows := @Progress.declaring_grows ⟨s, []⟩ x hb (not_mem_here_of_isDeclared hd)
      refine ⟨[x.name], hgrows, ?_⟩
      ext n
      simp only [newAmong, Ident.visible_of_not_blank hb, List.mem_singleton, Set.mem_ofPred_eq]
      exact ⟨fun h => ⟨h, h ▸ hd⟩, And.left⟩

theorem newAmong_cons (s : Scope) (x : Ident) (names : List Ident) :
    s.newAmong (x :: names) = s.newAmong [x] ∪ (s.define x).newAmong names := by
  ext n
  have hdefine : (s.define x).isDeclared n = false ↔
      s.isDeclared n = false ∧ n ∉ Ident.visible [x] := by
    simp only [← Bool.not_eq_true, isDeclared_define, not_or]
  simp only [newAmong, Ident.visible_cons x names, List.mem_append, Set.mem_union,
    Set.mem_ofPred_eq, hdefine]
  tauto

theorem defineAll_adds (s : Scope) (names : List Ident) :
    s.Adds (s.defineAll names) (s.newAmong names) := by
  induction names generalizing s with
  | nil =>
    refine ⟨[], .refl s, ?_⟩
    simp [newAmong, Ident.visible]
  | cons x names ih =>
    rw [defineAll_cons, newAmong_cons]
    exact (define_adds s x).trans (ih (s.define x))

end Scope

/-! ## Steps -/

namespace Lowering

/-- A step declares these names, one after the other, if it succeeds, and some first ones of them if
it fails. -/
structure Declares {α : Type} (step : Lowering α) (names : List Ident) : Prop where
  ok : ∀ {p q : Progress} {a : α}, step.runFrom p = (.ok a, q) →
    p.scope.Grows q.scope (Ident.visible names)
  error : ∀ {p q : Progress} {f : Fault}, step.runFrom p = (.error f, q) →
    ∃ first, first <+: names ∧ p.scope.Grows q.scope (Ident.visible first)

variable {α β γ : Type} {x : Lowering α} {y : Lowering β} {ms ns : List Ident}

/-- A step that leaves the scope as it was may be said to declare blank names. -/
theorem Declares.of_scope_eq (h : ∀ p, (x.runFrom p).2.scope = p.scope)
    (hn : Ident.visible ns = []) : Declares x ns := by
  constructor
  · intro p q a hrun
    have hs := h p
    rw [hrun] at hs
    rw [hs, hn]
    exact .refl _
  · intro p q f hrun
    have hs := h p
    rw [hrun] at hs
    refine ⟨[], List.nil_prefix, ?_⟩
    rw [hs]
    exact .refl _

theorem Declares.scope_eq (h : Declares x []) (p : Progress) : (x.runFrom p).2.scope = p.scope := by
  rcases hrun : x.runFrom p with ⟨f | a, q⟩
  · obtain ⟨first, hfirst, hgrows⟩ := h.error hrun
    rw [List.prefix_nil.1 hfirst] at hgrows
    exact hgrows.eq_of_nil
  · exact (h.ok hrun).eq_of_nil

theorem declares_pure (a : α) : Declares (pure a) [] := .of_scope_eq (fun _ => rfl) rfl

theorem declares_lift (r : Except Fault α) : Declares (lift r) [] := .of_scope_eq (fun _ => rfl) rfl

/-- A step that always fails may be said to declare any names. -/
theorem declares_reject (src : Source) (cause : String → Cause) (span : Span) :
    Declares (reject src cause span : Lowering α) ns := by
  constructor
  · intro p q a hrun
    exact absurd hrun reject_ok
  · intro p q f hrun
    cases hrun
    exact ⟨[], List.nil_prefix, .refl _⟩

theorem declares_expr (src : Source) (e : Expr) : Declares (expr src e) [] :=
  .of_scope_eq (fun _ => rfl) rfl

/-- Whatever is declared at a level of its own is gone after it. -/
theorem declares_inChild (x : Lowering α) : Declares (inChild x) [] :=
  .of_scope_eq (fun _ => rfl) rfl

theorem declares_declare {x : Ident} (hb : x.isBlank = false) : Declares (declare x) [x] := by
  constructor
  · intro p q u hrun
    obtain ⟨hd, rfl⟩ := (declare_ok_of_not_blank hb).1 hrun
    rw [Ident.visible_of_not_blank hb]
    exact Progress.declaring_grows hb (Scope.isDeclaredHere_eq_false.1 hd)
  · intro p q f hrun
    refine ⟨[], List.nil_prefix, ?_⟩
    rw [declare_runFrom] at hrun
    cases hs : p.scope.declare? x with
    | none =>
      rw [hs] at hrun
      cases hrun
      exact .refl _
    | some s =>
      rw [hs] at hrun
      cases hrun

theorem Declares.bind {f : α → Lowering β} (hx : Declares x ms) (hf : ∀ a, Declares (f a) ns) :
    Declares (x >>= f) (ms ++ ns) := by
  constructor
  · intro p q b hrun
    obtain ⟨a, r, hr, hq⟩ := bind_ok.1 hrun
    rw [Ident.visible_append]
    exact (hx.ok hr).trans ((hf a).ok hq)
  · intro p q e hrun
    rw [bind_runFrom] at hrun
    rcases hr : x.runFrom p with ⟨d | a, r⟩
    · rw [hr] at hrun
      cases hrun
      obtain ⟨first, hfirst, hgrows⟩ := hx.error hr
      exact ⟨first, hfirst.trans (List.prefix_append ms ns), hgrows⟩
    · rw [hr] at hrun
      obtain ⟨first, hfirst, hgrows⟩ := (hf a).error hrun
      refine ⟨ms ++ first, (List.prefix_append_right_inj ms).2 hfirst, ?_⟩
      rw [Ident.visible_append]
      exact (hx.ok hr).trans hgrows

theorem Declares.map (hx : Declares x ms) (f : α → β) : Declares (f <$> x) ms := by
  rw [map_eq_pure_bind, ← List.append_nil ms]
  exact hx.bind fun _ => declares_pure _

theorem Declares.both (hx : Declares x ms) (hy : Declares y ns) (f : α → β → γ) :
    Declares (do let a ← x; let b ← y; return f a b) (ms ++ ns) := by
  apply hx.bind
  intro a
  have hmap := hy.map (f a)
  rwa [map_eq_pure_bind] at hmap

theorem declares_option {g : α → Lowering β} (h : ∀ a, Declares (g a) []) (o : Option α) :
    Declares (o.mapM g) [] := by
  cases o with
  | none => exact declares_pure none
  | some a => exact (h a).map some

end Lowering

open Lowering (Declares declares_pure declares_lift declares_reject declares_expr declares_inChild
  declares_declare declares_option)

/-! ## Simple statements -/

section Simple

variable {src : Source}

theorem lowerPair_declares (op : Operator) (lhs rhs : Expr) :
    Declares (lowerPair src op lhs rhs) [] := by
  refine (declares_expr src rhs).bind fun value => ?_
  split
  · exact declares_pure _
  · exact (declares_expr src lhs).bind fun target => declares_pure _

theorem lowerAssign_declares (op : Operator) (pairs : List (Expr × Expr)) :
    Declares (lowerAssign src op pairs) [] := by
  induction pairs with
  | nil => exact declares_pure []
  | cons pair pairs ih => exact (lowerPair_declares op pair.1 pair.2).both ih _

/-- A name is declared before its value is looked at. -/
theorem lowerName_declares (kind : DeclKind) (type : Option Primitive) (x : Ident)
    (value : Option Expr) : Declares (lowerName src kind type x value) [x] := by
  unfold lowerName
  by_cases hb : x.isBlank = true
  · rw [if_pos hb]
    refine .of_scope_eq (fun p => ?_) (Ident.visible_of_blank hb)
    cases value with
    | none => rfl
    | some v =>
      exact ((declares_expr src v).bind fun _ => declares_pure _).scope_eq p
  · rw [if_neg hb]
    refine (declares_declare (Bool.not_eq_true _ ▸ hb)).bind fun _ => ?_
    exact (declares_option (declares_expr src) value).bind fun _ => declares_pure _

theorem lowerNames_declares (kind : DeclKind) (type : Option Primitive) (names : List Ident)
    (values : List Expr) : Declares (lowerNames src kind type names values) names := by
  induction names generalizing values with
  | nil => exact declares_pure []
  | cons x names ih =>
    exact (lowerName_declares kind type x values.head?).both (ih values.tail) _

theorem ValueSpec.lower_declares (kind : DeclKind) (spec : ValueSpec) :
    Declares (spec.lower src kind) spec.names := by
  unfold ValueSpec.lower
  refine (declares_option (fun t => declares_lift (t.lower src)) spec.type).bind fun type => ?_
  split
  · exact declares_reject src _ _
  · exact lowerNames_declares kind type spec.names spec.values

theorem lowerSpecs_declares (kind : DeclKind) (specs : List ValueSpec) :
    Declares (lowerSpecs src kind specs) (specs.flatMap ValueSpec.names) := by
  induction specs with
  | nil => exact declares_pure []
  | cons spec specs ih =>
    rw [List.flatMap_cons]
    exact (spec.lower_declares kind).both ih _

end Simple

/-! ## Statements without bindings -/

section Plain

variable {src : Source}

/-- The statements that declare names at their level: `:=`, `var` and `const`. -/
def Stmt.binds : Stmt → Bool
  | .assign _ op _ _ => op = .define
  | .decl .. => true
  | .ret .. | .step .. | .cond .. | .loop .. | .block _ | .unsupported _ => false

theorem Block.lower_declares (b : Block) : Declares (b.lower src) [] := by
  obtain ⟨ss, span⟩ := b
  rw [Block.lower]
  exact declares_inChild _

/-- All other statements leave their level as it is. -/
theorem Stmt.lower_declares_nothing {s : Stmt} (hs : s.binds = false) :
    Declares (s.lower src) [] := by
  cases s with
  | ret results span =>
    rcases results with _ | ⟨v, _ | ⟨w, rest⟩⟩
    · exact declares_pure _
    · rw [Stmt.lower]
      exact (declares_expr src v).bind fun x => declares_pure _
    · exact declares_reject src _ _
  | assign lhs op rhs span =>
    rw [Stmt.lower, Stmt.lowerSimple]
    refine Declares.map ?_ _
    split
    · exact declares_reject src _ _
    · rw [if_neg (of_decide_eq_false hs)]
      exact lowerAssign_declares op _
  | decl kind specs span => cases hs
  | step operand op span =>
    rw [Stmt.lower, Stmt.lowerSimple]
    exact ((declares_expr src operand).bind fun x => declares_pure _).map _
  | cond init test body other span =>
    rw [Stmt.lower]
    exact declares_inChild _
  | loop init test post body span =>
    rw [Stmt.lower]
    exact declares_inChild _
  | block body =>
    rw [Stmt.lower]
    exact body.lower_declares.bind fun body' => declares_pure _
  | unsupported span =>
    rw [Stmt.lower]
    exact declares_reject src _ _

end Plain

/-! ## Bindings -/

section Define

variable {src : Source}

/-- A `:=` that is refused before any of its bindings: the sides do not match, a left side is no
name, or no name is new. -/
inductive RefusedDefine (s : Scope) (lhs rhs : List Expr) : Prop
  | count (h : lhs.length ≠ rhs.length)
  | noName (h : ∃ e ∈ lhs, ∀ x, e ≠ .name x)
  | noNew (h : ∀ x ∈ lhs.filterMap Expr.name?, x.isBlank = false → s.isDeclaredHere x.name = true)

theorem RefusedDefine.of_run {lhs rhs : List Expr} {span : Span} {p : Progress}
    {run : Except Fault (List Fragment) × Progress} (h : RefusedDefine p.scope lhs rhs)
    (hrun : DefineRun src lhs rhs span p run) : run.2 = p := by
  cases hrun with
  | count | noName | noNew => rfl
  | binds hn hl hr =>
    cases h with
    | count hne => exact absurd ((Expr.names_length hn).symm.trans hl) hne
    | noName hno =>
      rw [Expr.names_eq_none_iff.2 hno] at hn
      cases hn
    | noNew hno =>
      rw [← Expr.names_eq hn] at hno
      rcases repeatedName?_eq_none_iff.1 hr with rfl | ⟨x, hx, hb, hd⟩
      · rfl
      · rw [hno x hx hb] at hd
        cases hd

/-- `:=` adds the names that are new, all of them if it succeeds, and those before the first value
that is refused if it fails. -/
theorem DefineRun.adds {lhs rhs : List Expr} {span : Span} {p : Progress}
    {run : Except Fault (List Fragment) × Progress} (h : DefineRun src lhs rhs span p run) :
    (∀ fs q, run = (.ok fs, q) →
      p.scope.Adds q.scope (p.scope.newAmong (lhs.filterMap Expr.name?))) ∧
    ∀ f q, run = (.error f, q) → ∃ first, first <+: lhs.filterMap Expr.name? ∧
      p.scope.Adds q.scope (p.scope.newAmong first) := by
  cases h with
  | count | noName | noNew =>
    refine ⟨fun fs q hq => ?_, fun f q hq => ?_⟩
    · cases hq
    · cases hq
      exact ⟨[], List.nil_prefix, p.scope.defineAll_adds []⟩
  | binds hn hl hr =>
    rw [← Expr.names_eq hn]
    rcases Expr.values_or_stops src rhs with ⟨values, h⟩ | ⟨k, f, h⟩
    · obtain ⟨lost, hok⟩ := lowerBindings_of_values hl h p
      rw [hok]
      refine ⟨fun fs q hq => ?_, fun f q hq => ?_⟩
      · cases hq
        exact p.scope.defineAll_adds _
      · cases hq
    · obtain ⟨lost, herror⟩ := lowerBindings_of_stops hl h p
      rw [herror]
      refine ⟨fun fs q hq => ?_, fun f q hq => ?_⟩
      · cases hq
      · cases hq
        exact ⟨_, List.take_prefix k _, p.scope.defineAll_adds _⟩

theorem lower_define_adds (src : Source) (lhs rhs : List Expr) (span : Span) (p : Progress) :
    (∀ t q, ((Stmt.assign lhs .define rhs span).lower src).runFrom p = (.ok t, q) →
      p.scope.Adds q.scope (p.scope.newAmong (lhs.filterMap Expr.name?))) ∧
    ∀ f q, ((Stmt.assign lhs .define rhs span).lower src).runFrom p = (.error f, q) →
      ∃ first, first <+: lhs.filterMap Expr.name? ∧
        p.scope.Adds q.scope (p.scope.newAmong first) := by
  obtain ⟨hok, herror⟩ := (Stmt.lowerSimple_define src lhs rhs span p).adds
  rw [Stmt.lower, Lowering.map_runFrom]
  rcases hrun : ((Stmt.assign lhs .define rhs span).lowerSimple src).runFrom p with ⟨f | fs, r⟩
  · refine ⟨fun t q h => ?_, fun f q h => ?_⟩
    · cases h
    · cases h
      exact herror f r hrun
  · refine ⟨fun t q h => ?_, fun f q h => ?_⟩
    · cases h
      exact hok fs r hrun
    · cases h

end Define

section Specs

variable {src : Source}

/-- A specification that is refused before any of its bindings: its type has no C++ counterpart,
names and values do not match, or its first name is declared already. -/
inductive ValueSpec.Refused (src : Source) (s : Scope) (spec : ValueSpec) : Prop
  | type {t : TypeExpr} {f : Fault} (ht : spec.type = some t) (hf : t.lower src = .error f)
  | count (hv : spec.values ≠ []) (hl : spec.values.length ≠ spec.names.length)
  | declared {x : Ident} {names : List Ident} (hn : spec.names = x :: names)
      (hb : x.isBlank = false) (hd : s.isDeclaredHere x.name = true)

theorem ValueSpec.lower_runFrom (kind : DeclKind) (spec : ValueSpec) (p : Progress) :
    (spec.lower src kind).runFrom p =
      match spec.type.mapM (TypeExpr.lower src) with
      | .ok type =>
        if !spec.values.isEmpty && spec.values.length != spec.names.length then
          (.error (src.reject .unsupportedStatement spec.span), p)
        else (lowerNames src kind type spec.names spec.values).runFrom p
      | .error f => (.error f, p) := by
  unfold ValueSpec.lower
  rw [Lowering.bind_runFrom, Lowering.mapM_lift_runFrom]
  cases spec.type.mapM (TypeExpr.lower src) with
  | error f => rfl
  | ok type =>
    by_cases hc : (!spec.values.isEmpty && spec.values.length != spec.names.length) = true
    · simp only [if_pos hc]
      rfl
    · simp only [if_neg hc]

theorem lowerNames_of_declared {x : Ident} {p : Progress} (hb : x.isBlank = false)
    (hd : p.scope.isDeclaredHere x.name = true) (kind : DeclKind) (type : Option Primitive)
    (names : List Ident) (values : List Expr) :
    (lowerNames src kind type (x :: names) values).runFrom p
      = (.error (.rejected ⟨.duplicateDeclaration x.name, x.span⟩), p) := by
  have hnone : p.scope.declare? x = none := Scope.declare?_eq_none_iff.2 ⟨hb, hd⟩
  rw [lowerNames, Lowering.bind_runFrom]
  unfold lowerName
  rw [hb, if_neg Bool.false_ne_true, Lowering.bind_runFrom, Lowering.declare_runFrom, hnone]

theorem ValueSpec.Refused.runFrom {spec : ValueSpec} {p : Progress}
    (h : spec.Refused src p.scope) (kind : DeclKind) :
    ∃ f, (spec.lower src kind).runFrom p = (.error f, p) := by
  rw [ValueSpec.lower_runFrom]
  cases htype : spec.type.mapM (TypeExpr.lower src) with
  | error f => exact ⟨f, rfl⟩
  | ok type =>
    by_cases hc : (!spec.values.isEmpty && spec.values.length != spec.names.length) = true
    · exact ⟨_, if_pos hc⟩
    · simp only [if_neg hc]
      cases h with
      | type ht hf =>
        rw [ht] at htype
        simp only [Option.mapM_some, hf] at htype
        cases htype
      | count hv hl => simp [hv, hl] at hc
      | declared hn hb hd =>
        rw [hn]
        exact ⟨_, lowerNames_of_declared hb hd kind type _ _⟩

/-- Specifications without names declare nothing, so the first one with a name may be refused. -/
theorem lowerSpecs_scope_of_refused {before : List ValueSpec} {spec : ValueSpec} {p : Progress}
    (hbefore : ∀ s ∈ before, s.names = []) (h : spec.Refused src p.scope) (kind : DeclKind)
    (after : List ValueSpec) :
    ((lowerSpecs src kind (before ++ spec :: after)).runFrom p).2.scope = p.scope := by
  induction before generalizing p with
  | nil =>
    obtain ⟨f, hrun⟩ := h.runFrom kind
    rw [List.nil_append, lowerSpecs, Lowering.bind_runFrom, hrun]
  | cons s before ih =>
    rw [List.forall_mem_cons] at hbefore
    have hs : Declares (s.lower src kind) [] := hbefore.1 ▸ s.lower_declares kind
    have hscope := hs.scope_eq p
    rw [List.cons_append, lowerSpecs, Lowering.bind_runFrom]
    rcases hrun : (s.lower src kind).runFrom p with ⟨f | fs, q⟩
    · rw [hrun] at hscope
      exact hscope
    · rw [hrun] at hscope
      have hq : spec.Refused src q.scope := by rwa [hscope]
      have hrest := ih hbefore.2 hq
      simp only [Lowering.bind_runFrom]
      rcases hrun' : (lowerSpecs src kind (before ++ spec :: after)).runFrom q with ⟨f | gs, r⟩
      · rw [hrun'] at hrest
        exact hrest.trans hscope
      · rw [hrun'] at hrest
        exact hrest.trans hscope

end Specs

theorem Stmt.lower_decl_declares (src : Source) (kind : DeclKind) (specs : List ValueSpec)
    (span : Span) :
    Declares ((Stmt.decl kind specs span).lower src) (specs.flatMap ValueSpec.names) := by
  rw [Stmt.lower, Stmt.lowerSimple]
  exact (lowerSpecs_declares kind specs).map _

/-- Whatever a statement comes to, its level only grows. -/
theorem Stmt.lower_scope_grows (src : Source) (s : Stmt) (p : Progress) :
    ∃ added, p.scope.Grows ((s.lower src).runFrom p).2.scope added := by
  by_cases hs : s.binds = true
  · rcases hrun : (s.lower src).runFrom p with ⟨f | t, q⟩
    · cases s with
      | assign lhs op rhs span =>
        obtain rfl : op = .define := of_decide_eq_true hs
        obtain ⟨first, -, added, hgrows, -⟩ := (lower_define_adds src lhs rhs span p).2 f q hrun
        exact ⟨added, hgrows⟩
      | decl kind specs span =>
        obtain ⟨first, -, hgrows⟩ := (Stmt.lower_decl_declares src kind specs span).error hrun
        exact ⟨_, hgrows⟩
      | ret | step | cond | loop | block | unsupported => cases hs
    · exact ⟨_, Stmt.lower_grows hrun⟩
  · rw [Bool.not_eq_true] at hs
    rw [(Stmt.lower_declares_nothing hs).scope_eq p]
    exact ⟨[], .refl p.scope⟩

/-- **Effect of a statement on its level.** Whether it succeeds or fails, the scope only grows, by
distinct names that are not blank. Only `:=`, `var` and `const` let it grow. A `:=` that succeeds
adds its names that could not be seen before; a declaration that succeeds adds all of its names; and
one that fails adds what it would add for some first ones of its names, or nothing if it is refused
before its bindings. -/
theorem scope_effect (src : Source) (s : Stmt) (p : Progress) :
    let run := (s.lower src).runFrom p
    (∃ added, p.scope.Grows run.2.scope added) ∧
    (s.binds = false → run.2.scope = p.scope) ∧
    (∀ lhs rhs span, s = .assign lhs .define rhs span →
      (∀ t q, run = (.ok t, q) →
        p.scope.Adds q.scope (p.scope.newAmong (lhs.filterMap Expr.name?))) ∧
      (∀ f q, run = (.error f, q) → ∃ first, first <+: lhs.filterMap Expr.name? ∧
        p.scope.Adds q.scope (p.scope.newAmong first)) ∧
      (RefusedDefine p.scope lhs rhs → run.2.scope = p.scope)) ∧
    ∀ kind specs span, s = .decl kind specs span →
      (∀ t q, run = (.ok t, q) →
        p.scope.Adds q.scope {n | n ∈ Ident.visible (specs.flatMap ValueSpec.names)}) ∧
      (∀ f q, run = (.error f, q) → ∃ first, first <+: specs.flatMap ValueSpec.names ∧
        p.scope.Adds q.scope {n | n ∈ Ident.visible first}) ∧
      ∀ before spec after, specs = before ++ spec :: after → (∀ s ∈ before, s.names = []) →
        spec.Refused src p.scope → run.2.scope = p.scope := by
  refine ⟨Stmt.lower_scope_grows src s p, fun hs => (Stmt.lower_declares_nothing hs).scope_eq p,
    ?_, ?_⟩
  · rintro lhs rhs span rfl
    obtain ⟨hok, herror⟩ := lower_define_adds src lhs rhs span p
    refine ⟨hok, herror, fun h => ?_⟩
    rw [Stmt.lower, Lowering.map_runFrom, h.of_run (Stmt.lowerSimple_define src lhs rhs span p)]
  · rintro kind specs span rfl
    have hdeclares := Stmt.lower_decl_declares src kind specs span
    refine ⟨fun t q hrun => (hdeclares.ok hrun).adds, ?_, ?_⟩
    · intro f q hrun
      obtain ⟨first, hfirst, hgrows⟩ := hdeclares.error hrun
      exact ⟨first, hfirst, hgrows.adds⟩
    · rintro before spec after rfl hbefore hspec
      rw [Stmt.lower, Lowering.map_runFrom]
      exact lowerSpecs_scope_of_refused hbefore hspec kind after

/-- `x, y := 1, p.q; var x, y = 1, p.q`. -/
def Source.halves : Source := ⟨"x, y := 1, p.q; var x, y = 1, p.q"⟩

/-- The value `p.q`, which is refused. -/
def Expr.half (start : Nat) : Expr :=
  .selector (.name ⟨"p", ⟨start, start + 1⟩⟩) ⟨"q", ⟨start + 2, start + 3⟩⟩ ⟨start, start + 3⟩

/-- The first statement of that text: `x` is declared after its value. -/
def Stmt.defineHalf : Stmt :=
  .assign [.name ⟨"x", ⟨0, 1⟩⟩, .name ⟨"y", ⟨3, 4⟩⟩] .define [.literal "1" ⟨8, 9⟩, .half 11] ⟨0, 14⟩

/-- The second: `x` and `y` are declared before their values. -/
def Stmt.declareHalf : Stmt :=
  .decl .var
    [⟨[⟨"x", ⟨20, 21⟩⟩, ⟨"y", ⟨23, 24⟩⟩], none, [.literal "1" ⟨27, 28⟩, .half 30], ⟨20, 33⟩⟩]
    ⟨16, 33⟩

theorem scope_effect_halves :
    (∃ f q, (Stmt.defineHalf.lower .halves).runFrom ⟨.root .isolated, []⟩ = (.error f, q) ∧
      q.scope.here = ["x"] ∧
      ∃ first, first <+: [⟨"x", ⟨0, 1⟩⟩, ⟨"y", ⟨3, 4⟩⟩] ∧
        (Scope.root .isolated).Adds q.scope ((Scope.root .isolated).newAmong first)) ∧
    ∃ f q, (Stmt.declareHalf.lower .halves).runFrom ⟨.root .isolated, []⟩ = (.error f, q) ∧
      q.scope.here = ["y", "x"] ∧
      ∃ first, first <+: [⟨"x", ⟨20, 21⟩⟩, ⟨"y", ⟨23, 24⟩⟩] ∧
        (Scope.root .isolated).Adds q.scope {n | n ∈ Ident.visible first} := by
  obtain ⟨-, -, hdefine, -⟩ := scope_effect .halves .defineHalf ⟨.root .isolated, []⟩
  obtain ⟨-, -, -, hdecl⟩ := scope_effect .halves .declareHalf ⟨.root .isolated, []⟩
  refine ⟨⟨_, _, rfl, rfl, ?_⟩, ⟨_, _, rfl, rfl, ?_⟩⟩
  · exact (hdefine _ _ _ rfl).2.1 _ _ rfl
  · exact (hdecl _ _ _ rfl).2.1 _ _ rfl

end Recast
