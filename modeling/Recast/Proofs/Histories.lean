import Recast.Proofs.Declared
import Mathlib.Data.List.Induction

/-!
# Histories of scopes

Scopes are opened, left and declared in, one operation after the other. What the scope in use says
of a name is told by the operations alone (`Scope.history_answers`): a name is declared in it just
if that was asked of it since it was opened, no matter what was opened and left again meanwhile.

A part of a history climbs (`Climbs`) if it leaves only scopes that were opened in it. So the scope
of an operation is still open at the end if what comes after it climbs, and `depth` scopes have been
opened inside it since then.
-/

namespace Recast.Scope

/-- What is done with scopes: one is opened inside the scope in use, that scope is left, or a name
is to be declared in it. -/
inductive Op where
  | enter
  | leave
  | declare (x : Ident)
  deriving Repr, DecidableEq, Inhabited

/-- The scope in use, and the scopes around it that are open, the innermost first. -/
structure Nest where
  scope : Scope
  around : List Scope
  deriving Repr, DecidableEq, Inhabited

namespace Nest

/-- The outermost scope of a function. -/
def root (policy : ScopePolicy) : Nest := ⟨.root policy, []⟩

/-- All open scopes, the innermost first. -/
def scopes (s : Nest) : List Scope := s.scope :: s.around

/-- One operation. The outermost scope is never left; a name that cannot be declared changes
nothing. -/
def step? (s : Nest) : Op → Option Nest
  | .enter => some ⟨s.scope.child, s.scopes⟩
  | .leave =>
    match s.around with
    | [] => none
    | t :: ts => some ⟨t, ts⟩
  | .declare x => some { s with scope := (s.scope.declare? x).getD s.scope }

def run? (s : Nest) (ops : List Op) : Option Nest := ops.foldlM step? s

@[simp] theorem run?_nil (s : Nest) : s.run? [] = some s := rfl

theorem run?_snoc (s : Nest) (ops : List Op) (op : Op) :
    s.run? (ops ++ [op]) = (s.run? ops).bind fun t => t.step? op := by
  unfold run?
  rw [List.foldlM_append]
  cases ops.foldlM step? s with
  | none => rfl
  | some t => exact bind_pure (t.step? op)

/-- The scope that is left gives way to the one around it. -/
theorem step?_leave_eq_some {s t : Nest} : s.step? .leave = some t ↔ s.around = t.scopes := by
  obtain ⟨u, us⟩ := t
  unfold step? scopes
  cases s.around with
  | nil => simp
  | cons v vs => simp

theorem run?_snoc_eq_some {s u : Nest} {ops : List Op} {op : Op} :
    s.run? (ops ++ [op]) = some u ↔ ∃ t, s.run? ops = some t ∧ t.step? op = some u := by
  rw [run?_snoc, Option.bind_eq_some_iff]

end Nest

/-! ## Parts of a history -/

/-- Operations that leave only scopes which they opened themselves, and end `depth` scopes further
inside. -/
structure Climbs (depth : Nat) (ops : List Op) : Prop where
  within : ∀ p, p <+: ops → p.count .leave ≤ p.count .enter
  rise : ops.count .enter = ops.count .leave + depth

/-- A name was to be declared in the scope `depth` levels around the one in use, after that scope
was opened. -/
def Called (depth : Nat) (ops : List Op) (n : String) : Prop :=
  ∃ before x after, ops = before ++ .declare x :: after ∧ x.name = n ∧ Climbs depth after

/-- A name was to be declared in a scope that can be seen from the one in use: in that scope itself,
or under the chained policy in any that is still open. -/
def CalledInSight (policy : ScopePolicy) (ops : List Op) (n : String) : Prop :=
  match policy with
  | .isolated => Called 0 ops n
  | .chained => ∃ depth, Called depth ops n

section Climbs

variable {depth : Nat} {ops : List Op} {x : Ident}

theorem climbs_nil : Climbs depth [] ↔ depth = 0 := by
  constructor
  · intro h
    simpa using h.rise.symm
  · rintro rfl
    refine ⟨fun p hp => ?_, rfl⟩
    rw [List.prefix_nil.1 hp]
    exact Nat.le_refl _

/-- The last operation counts for the whole only. -/
theorem climbs_snoc {op : Op} :
    Climbs depth (ops ++ [op]) ↔
      (∀ p, p <+: ops → p.count .leave ≤ p.count .enter) ∧
        (ops ++ [op]).count .enter = (ops ++ [op]).count .leave + depth := by
  constructor
  · intro h
    exact ⟨fun p hp => h.within p (hp.trans (List.prefix_append ops [op])), h.rise⟩
  · rintro ⟨hwithin, hrise⟩
    refine ⟨fun p hp => ?_, hrise⟩
    rcases List.prefix_concat_iff.1 hp with rfl | hp
    · omega
    · exact hwithin p hp

theorem climbs_declare : Climbs depth (ops ++ [.declare x]) ↔ Climbs depth ops := by
  rw [climbs_snoc]
  simp only [List.count_append, List.count_singleton]
  constructor
  · rintro ⟨hwithin, hrise⟩
    exact ⟨hwithin, by simpa using hrise⟩
  · rintro ⟨hwithin, hrise⟩
    exact ⟨hwithin, by simpa using hrise⟩

theorem climbs_enter :
    Climbs depth (ops ++ [.enter]) ↔ ∃ depth', depth = depth' + 1 ∧ Climbs depth' ops := by
  rw [climbs_snoc]
  simp only [List.count_append, List.count_singleton]
  constructor
  · rintro ⟨hwithin, hrise⟩
    have hle := hwithin ops (List.prefix_refl ops)
    have hrise : ops.count .enter + 1 = ops.count .leave + depth := by simpa using hrise
    exact ⟨depth - 1, by omega, hwithin, by omega⟩
  · rintro ⟨depth', rfl, hwithin, hrise⟩
    refine ⟨hwithin, ?_⟩
    rw [hrise]
    simp [Nat.add_assoc]

theorem climbs_leave : Climbs depth (ops ++ [.leave]) ↔ Climbs (depth + 1) ops := by
  rw [climbs_snoc]
  simp only [List.count_append, List.count_singleton]
  constructor
  · rintro ⟨hwithin, hrise⟩
    have hrise : ops.count .enter = ops.count .leave + 1 + depth := by simpa using hrise
    exact ⟨hwithin, by omega⟩
  · rintro ⟨hwithin, hrise⟩
    have hrise : ops.count .enter = ops.count .leave + 1 + depth := by omega
    exact ⟨hwithin, by simpa using hrise⟩

end Climbs

section Called

variable {depth : Nat} {ops : List Op} {n : String}

theorem not_called_nil : ¬ Called depth [] n := by
  rintro ⟨before, x, after, h, -⟩
  cases before <;> cases h

/-- The last operation is the one that is looked for, or it comes after that one. -/
theorem called_snoc {op : Op} :
    Called depth (ops ++ [op]) n ↔
      (∃ x, op = .declare x ∧ x.name = n ∧ depth = 0) ∨
        ∃ before x after, ops = before ++ .declare x :: after ∧ x.name = n ∧
          Climbs depth (after ++ [op]) := by
  constructor
  · rintro ⟨before, x, after, h, hx, hclimbs⟩
    rcases List.eq_nil_or_concat after with rfl | ⟨after, last, rfl⟩
    · obtain ⟨-, hop⟩ := List.append_inj' h rfl
      exact .inl ⟨x, List.head_eq_of_cons_eq hop, hx, climbs_nil.1 hclimbs⟩
    · rw [List.concat_eq_append] at h hclimbs
      rw [← List.cons_append, ← List.append_assoc] at h
      obtain ⟨hops, hop⟩ := List.append_inj' h rfl
      cases hop
      exact .inr ⟨before, x, after, hops, hx, hclimbs⟩
  · rintro (⟨x, rfl, hx, rfl⟩ | ⟨before, x, after, rfl, hx, hclimbs⟩)
    · exact ⟨ops, x, [], rfl, hx, climbs_nil.2 rfl⟩
    · exact ⟨before, x, after ++ [op], by simp, hx, hclimbs⟩

theorem called_declare {x : Ident} :
    Called depth (ops ++ [.declare x]) n ↔ x.name = n ∧ depth = 0 ∨ Called depth ops n := by
  rw [called_snoc]
  simp only [climbs_declare, Op.declare.injEq, exists_eq_left']
  rfl

/-- Nothing was asked yet of a scope that was just opened. -/
theorem not_called_enter : ¬ Called 0 (ops ++ [.enter]) n := by
  rw [called_snoc]
  rintro (⟨x, ⟨⟩, -⟩ | ⟨before, x, after, -, -, hclimbs⟩)
  obtain ⟨depth', hdepth, -⟩ := climbs_enter.1 hclimbs
  cases hdepth

theorem called_enter : Called (depth + 1) (ops ++ [.enter]) n ↔ Called depth ops n := by
  rw [called_snoc]
  simp only [climbs_enter, Nat.add_right_cancel_iff, exists_eq_left', reduceCtorEq, false_and,
    exists_const, false_or]
  rfl

theorem called_leave : Called depth (ops ++ [.leave]) n ↔ Called (depth + 1) ops n := by
  rw [called_snoc]
  simp only [climbs_leave, reduceCtorEq, false_and, exists_const, false_or]
  rfl

end Called

/-! ## What the open scopes hold -/

/-- A scope sees the scopes open around it, or none of them, by its policy. -/
def Linked (policy : ScopePolicy) : List Scope → Prop
  | [] => True
  | s :: ss =>
    s.policy = policy ∧
      s.outer = (match policy with
        | .isolated => []
        | .chained => ss.map Scope.here) ∧
      Linked policy ss

theorem Linked.child {policy : ScopePolicy} {s : Scope} {ss : List Scope}
    (h : Linked policy (s :: ss)) : Linked policy (s.child :: s :: ss) := by
  obtain ⟨hpolicy, houter, hss⟩ := h
  refine ⟨(child_policy s).trans hpolicy, ?_, hpolicy, houter, hss⟩
  unfold Scope.child
  rw [hpolicy]
  cases policy with
  | isolated => rfl
  | chained => exact congrArg (s.here :: ·) houter

/-- A scope after a name was to be declared in it: the name is there, unless it is blank. -/
theorem mem_here_declare? {s : Scope} {x : Ident} {n : String} :
    n ∈ ((s.declare? x).getD s).here ↔ n ∈ s.here ∨ x.name = n ∧ n ≠ "_" := by
  unfold declare?
  split
  · rename_i hblank
    have hname : x.name = "_" := by simpa [Ident.isBlank] using hblank
    rw [Option.getD_some, hname]
    exact ⟨.inl, fun h => h.resolve_right fun h => h.2 h.1.symm⟩
  · rename_i hblank
    have hname : x.name ≠ "_" := by simpa [Ident.isBlank] using hblank
    split
    · rename_i hhere
      have hmem : x.name ∈ s.here := isDeclaredHere_iff.1 hhere
      rw [Option.getD_none]
      refine ⟨.inl, ?_⟩
      rintro (h | ⟨rfl, -⟩)
      · exact h
      · exact hmem
    · rw [Option.getD_some, List.mem_cons]
      constructor
      · rintro (rfl | h)
        · exact .inr ⟨rfl, hname⟩
        · exact .inl h
      · rintro (h | ⟨rfl, -⟩)
        · exact .inr h
        · exact .inl rfl

theorem Linked.declare {policy : ScopePolicy} {s : Scope} {ss : List Scope} (x : Ident)
    (h : Linked policy (s :: ss)) : Linked policy ((s.declare? x).getD s :: ss) := by
  unfold declare?
  split
  · exact h
  · split
    · exact h
    · exact h

/-- The open scopes after some operations hold what was asked of them, and no others are open than
were opened. -/
structure Tells (policy : ScopePolicy) (ops : List Op) (s : Nest) : Prop where
  here : ∀ depth n,
    (∃ t, s.scopes[depth]? = some t ∧ n ∈ t.here) ↔ n ≠ "_" ∧ Called depth ops n
  linked : Linked policy s.scopes
  climbs : Climbs s.around.length ops

namespace Tells

variable {policy : ScopePolicy} {ops : List Op} {s t : Nest}

theorem root (policy : ScopePolicy) : Tells policy [] (.root policy) where
  here := by
    intro depth n
    refine iff_of_false ?_ fun h => not_called_nil h.2
    rintro ⟨t, ht, hn⟩
    cases depth with
    | zero =>
      cases ht
      cases hn
    | succ depth => cases ht
  linked := ⟨rfl, by cases policy <;> rfl, trivial⟩
  climbs := climbs_nil.2 rfl

theorem enter (h : Tells policy ops s) :
    Tells policy (ops ++ [.enter]) ⟨s.scope.child, s.scopes⟩ where
  here := by
    intro depth n
    cases depth with
    | zero =>
      refine iff_of_false ?_ fun h => not_called_enter h.2
      rintro ⟨t, ht, hn⟩
      cases ht
      rw [child_here] at hn
      cases hn
    | succ depth =>
      rw [called_enter]
      exact h.here depth n
  linked := h.linked.child
  climbs := climbs_enter.2 ⟨_, rfl, h.climbs⟩

theorem leave (h : Tells policy ops s) (hs : s.around = t.scopes) :
    Tells policy (ops ++ [.leave]) t where
  here := by
    intro depth n
    rw [called_leave]
    have hnext := h.here (depth + 1) n
    rwa [Nest.scopes, hs] at hnext
  linked := by
    have hlinked := h.linked.2.2
    rwa [hs] at hlinked
  climbs := by
    have hclimbs := h.climbs
    rw [hs] at hclimbs
    exact climbs_leave.2 hclimbs

theorem declare (h : Tells policy ops s) (x : Ident) :
    Tells policy (ops ++ [.declare x]) { s with scope := (s.scope.declare? x).getD s.scope } where
  here := by
    intro depth n
    rw [called_declare]
    cases depth with
    | zero =>
      have hhere := h.here 0 n
      simp only [Nest.scopes, List.getElem?_cons_zero, Option.some.injEq, exists_eq_left']
        at hhere ⊢
      rw [mem_here_declare?, hhere]
      tauto
    | succ depth =>
      have hhere := h.here (depth + 1) n
      simp only [Nest.scopes, List.getElem?_cons_succ] at hhere ⊢
      rw [hhere]
      simp
  linked := h.linked.declare x
  climbs := climbs_declare.2 h.climbs

/-- What one operation keeps. -/
theorem step (h : Tells policy ops s) {op : Op} (hstep : s.step? op = some t) :
    Tells policy (ops ++ [op]) t := by
  cases op with
  | enter =>
    cases hstep
    exact h.enter
  | leave => exact h.leave (Nest.step?_leave_eq_some.1 hstep)
  | declare x =>
    cases hstep
    exact h.declare x

/-- So it holds after all runs. -/
theorem run (h : (Nest.root policy).run? ops = some s) : Tells policy ops s := by
  induction ops using List.reverseRecOn generalizing s with
  | nil =>
    cases h
    exact .root policy
  | append_singleton ops op ih =>
    obtain ⟨t, ht, hstep⟩ := Nest.run?_snoc_eq_some.1 h
    exact (ih ht).step hstep

theorem mem_here_iff (h : Tells policy ops s) {n : String} :
    n ∈ s.scope.here ↔ n ≠ "_" ∧ Called 0 ops n := by
  rw [← h.here 0 n]
  simp [Nest.scopes]

/-- Under the chained policy the scopes that can be seen are those that are open. -/
theorem isDeclared_iff (h : Tells policy ops s) {n : String} :
    s.scope.isDeclared n = true ↔ n ≠ "_" ∧ CalledInSight policy ops n := by
  have hdeclared : s.scope.isDeclared n = true ↔
      n ∈ s.scope.here ∨ ∃ names ∈ s.scope.outer, n ∈ names := by
    rw [isDeclared, Bool.or_eq_true, isDeclaredHere_iff, List.any_eq_true]
    simp only [List.contains_iff_mem]
  obtain ⟨-, houter, -⟩ := h.linked
  rw [hdeclared, houter]
  cases policy with
  | isolated => simp [h.mem_here_iff, CalledInSight]
  | chained =>
    have hsome : (∃ t ∈ s.scopes, n ∈ t.here) ↔ ∃ depth, n ≠ "_" ∧ Called depth ops n := by
      simp only [← h.here, List.mem_iff_getElem?]
      tauto
    rw [CalledInSight, ← exists_and_left, ← hsome]
    simp [Nest.scopes]

end Tells

/-! ## Runs -/

/-- Just those operations can be done in which no scope is left that was not opened. -/
theorem exists_run?_iff {policy : ScopePolicy} {ops : List Op} :
    (∃ s, (Nest.root policy).run? ops = some s) ↔ ∃ depth, Climbs depth ops := by
  constructor
  · rintro ⟨s, hs⟩
    exact ⟨_, (Tells.run hs).climbs⟩
  · rintro ⟨depth, h⟩
    induction ops using List.reverseRecOn generalizing depth with
    | nil => exact ⟨_, rfl⟩
    | append_singleton ops op ih =>
      cases op with
      | enter =>
        obtain ⟨depth', -, hclimbs⟩ := climbs_enter.1 h
        obtain ⟨s, hs⟩ := ih depth' hclimbs
        exact ⟨_, Nest.run?_snoc_eq_some.2 ⟨s, hs, rfl⟩⟩
      | declare x =>
        obtain ⟨s, hs⟩ := ih depth (climbs_declare.1 h)
        exact ⟨_, Nest.run?_snoc_eq_some.2 ⟨s, hs, rfl⟩⟩
      | leave =>
        have hclimbs := climbs_leave.1 h
        obtain ⟨⟨scope, around⟩, hs⟩ := ih (depth + 1) hclimbs
        have hlength : around.length = depth + 1 := by
          have hrise := (Tells.run hs).climbs.rise
          have hrise' := hclimbs.rise
          dsimp only at hrise
          omega
        obtain ⟨t, ts, rfl⟩ := List.exists_cons_of_length_eq_add_one hlength
        exact ⟨_, Nest.run?_snoc_eq_some.2 ⟨_, hs, rfl⟩⟩

/-- Of the scopes that are open, each but the innermost is as it was when the next one was opened
inside it. -/
theorem exists_run?_of_around {policy : ScopePolicy} {ops : List Op} {s : Nest}
    (h : (Nest.root policy).run? ops = some s) {depth : Nat} {t : Scope} {ts : List Scope}
    (hs : s.around.drop depth = t :: ts) :
    ∃ before inner, ops = before ++ .enter :: inner ∧ Climbs depth inner ∧
      (Nest.root policy).run? before = some ⟨t, ts⟩ := by
  induction ops using List.reverseRecOn generalizing s depth with
  | nil =>
    cases h
    simp [Nest.root] at hs
  | append_singleton ops op ih =>
    obtain ⟨u, hu, hstep⟩ := Nest.run?_snoc_eq_some.1 h
    cases op with
    | enter =>
      cases hstep
      cases depth with
      | zero =>
        cases hs
        exact ⟨ops, [], rfl, climbs_nil.2 rfl, hu⟩
      | succ depth =>
        obtain ⟨before, inner, rfl, hclimbs, hbefore⟩ := ih hu hs
        exact ⟨before, inner ++ [.enter], by simp, climbs_enter.2 ⟨depth, rfl, hclimbs⟩, hbefore⟩
    | leave =>
      have hs' : u.around.drop (depth + 1) = t :: ts := by
        rw [Nest.step?_leave_eq_some.1 hstep]
        exact hs
      obtain ⟨before, inner, rfl, hclimbs, hbefore⟩ := ih hu hs'
      exact ⟨before, inner ++ [.leave], by simp, climbs_leave.2 hclimbs, hbefore⟩
    | declare x =>
      cases hstep
      obtain ⟨before, inner, rfl, hclimbs, hbefore⟩ := ih hu hs
      exact ⟨before, inner ++ [.declare x], by simp, climbs_declare.2 hclimbs, hbefore⟩

/-- What the scope in use answers after some operations from a root scope, and what becomes of it
next. -/
structure Answers (policy : ScopePolicy) (ops : List Op) (s : Nest) : Prop where
  here : ∀ n, s.scope.isDeclaredHere n = true ↔ n ≠ "_" ∧ Called 0 ops n
  seen : ∀ n, s.scope.isDeclared n = true ↔ n ≠ "_" ∧ CalledInSight policy ops n
  refused : ∀ x, s.scope.declare? x = none ↔
    x.name ≠ "_" ∧ s.scope.isDeclaredHere x.name = true
  /-- A name that is refused is an error and changes nothing. -/
  kept : ∀ x, s.scope.declare? x = none → s.step? (.declare x) = some s ∧
    ∀ p : Progress, p.scope = s.scope → (Lowering.declare x).runFrom p =
      (.error (.rejected ⟨.duplicateDeclaration x.name, x.span⟩), p)
  /-- With the scope that is left, all is as it was when that scope was opened. -/
  restored : ∀ t, s.step? .leave = some t → ∃ before inner,
    ops = before ++ .enter :: inner ∧ Climbs 0 inner ∧ (Nest.root policy).run? before = some t

/-- **Scopes over whole runs.** Operations can be done on a root scope just if they leave no scope
that they did not open. After them a name is declared in the scope in use just if it is not blank
and was to be declared there since that scope was opened, and it can be seen there just if it was to
be declared in a scope that is still open, under the isolated policy in the one in use. A name is
refused just if it is declared in the scope in use, which stays as it is, and a scope that is left
gives way to what was there when it was opened. -/
theorem history_answers (policy : ScopePolicy) (ops : List Op) :
    ((∃ s, (Nest.root policy).run? ops = some s) ↔ ∃ depth, Climbs depth ops) ∧
      ∀ s, (Nest.root policy).run? ops = some s → Answers policy ops s := by
  refine ⟨exists_run?_iff, fun s hs => ?_⟩
  have htells := Tells.run hs
  refine ⟨fun n => ?_, fun n => htells.isDeclared_iff, fun x => ?_, fun x hx => ⟨?_, ?_⟩, ?_⟩
  · rw [isDeclaredHere_iff]
    exact htells.mem_here_iff
  · rw [declare?_eq_none_iff, Ident.isBlank, beq_eq_false_iff_ne]
  · rw [Nest.step?, hx, Option.getD_none]
  · intro p hp
    rw [Lowering.declare_runFrom, hp, hx]
  · intro t ht
    refine exists_run?_of_around hs ?_
    rw [List.drop_zero]
    exact Nest.step?_leave_eq_some.1 ht

/-- A scope is opened, left and another one opened in its place; a name is declared twice in the
first of the two, and the blank name in the second. -/
def reopening : List Op :=
  [.declare ⟨"x", ⟨0, 1⟩⟩, .enter, .declare ⟨"y", ⟨2, 3⟩⟩, .declare ⟨"y", ⟨4, 5⟩⟩, .leave, .enter,
    .declare ⟨"_", ⟨6, 7⟩⟩]

theorem history_answers_reopening :
    ((∃ s, (Nest.root .chained).run? reopening = some s) ↔ ∃ depth, Climbs depth reopening) ∧
      ∃ s, (Nest.root .chained).run? reopening = some s ∧ s.scope.isDeclared "x" = true ∧
        s.scope.isDeclared "y" = false ∧ Answers .chained reopening s :=
  ⟨(history_answers .chained reopening).1, ⟨⟨.chained, [], [["x"]]⟩, [⟨.chained, ["x"], []⟩]⟩,
    by decide, by decide, by decide, (history_answers .chained reopening).2 _ (by decide)⟩

end Recast.Scope
