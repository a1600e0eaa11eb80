import Recast.Proofs.Resolved
import Recast.Proofs.Surroundings

/-!
# Headers as blocks

What a header says in short, a block says at length (`header_sugar`): an initializer is a statement
before the conditional or the loop, in a block with it, and a conditional after `else` is one in a
block after `else`. The two differ in the number of levels around the parts. That does not matter to
a step that looks at the scope around it only from levels of its own (`Lowering.Enclosed`), as a
test, a body and the branches do.
-/

namespace Recast

open Target (Fragment)

variable {src : Source}

/-! ## Steps that work at levels of their own -/

/-- A level inside an empty level is like that level. -/
theorem Scope.child_alike_child_child (s : Scope) : s.child.Alike s.child.child := by
  refine .child_of_seen (s.child_policy).symm fun hp n => ?_
  rw [Bool.eq_iff_iff, isDeclared_child]
  simp [hp]

namespace Lowering

variable {α β : Type}

/-- A step that looks at the scope around it only from levels of its own, and leaves it as it is. -/
def Enclosed (x : Lowering α) : Prop :=
  ∀ s t : Scope, s.child.Alike t.child → ∀ lost, ∃ r ds,
    x.runFrom ⟨s, lost⟩ = (r, ⟨s, ds⟩) ∧ x.runFrom ⟨t, lost⟩ = (r, ⟨t, ds⟩)

/-- A step that does the same at scopes which are alike, and leaves them alike. -/
def Blind (x : Lowering α) : Prop :=
  ∀ s t : Scope, s.Alike t → ∀ lost, ∃ r s' t' ds, s'.Alike t' ∧
    x.runFrom ⟨s, lost⟩ = (r, ⟨s', ds⟩) ∧ x.runFrom ⟨t, lost⟩ = (r, ⟨t', ds⟩)

theorem enclosed_lift (r : Except Fault α) : Enclosed (lift r) :=
  fun _ _ _ lost => ⟨r, lost, rfl, rfl⟩

theorem enclosed_pure (a : α) : Enclosed (pure a) := fun _ _ _ lost => ⟨.ok a, lost, rfl, rfl⟩

theorem enclosed_reject (cause : String → Cause) (span : Span) :
    Enclosed (reject src cause span : Lowering α) :=
  enclosed_lift _

theorem enclosed_expr (e : Expr) : Enclosed (expr src e) :=
  fun _ _ _ lost => ⟨(e.lower src).result, lost ++ (e.lower src).lost, rfl, rfl⟩

theorem Enclosed.bind {x : Lowering α} {f : α → Lowering β} (hx : Enclosed x)
    (hf : ∀ a, Enclosed (f a)) : Enclosed (x >>= f) := by
  intro s t h lost
  obtain ⟨r, ds, hs, ht⟩ := hx s t h lost
  rw [bind_runFrom, bind_runFrom, hs, ht]
  cases r with
  | error e => exact ⟨.error e, ds, rfl, rfl⟩
  | ok a => exact hf a s t h ds

theorem Enclosed.map {x : Lowering α} (hx : Enclosed x) (f : α → β) : Enclosed (f <$> x) := by
  rw [map_eq_pure_bind]
  exact hx.bind fun a => enclosed_pure (f a)

theorem enclosed_option {f : α → Lowering β} (hf : ∀ a, Enclosed (f a)) :
    ∀ a : Option α, Enclosed (a.mapM f)
  | none => enclosed_pure none
  | some a => (hf a).map some

/-- A level of its own, at which the first step may declare names and the others may not. -/
theorem Blind.enclosed {x : Lowering α} {f : α → Lowering β} (hx : Blind x)
    (hf : ∀ a, Enclosed (f a)) : Enclosed (inChild (x >>= f)) := by
  intro s t h lost
  obtain ⟨r, s', t', ds, halike, hs, ht⟩ := hx s.child t.child h lost
  rw [inChild_runFrom, inChild_runFrom, bind_runFrom, bind_runFrom]
  simp only [Progress.inner, hs, ht]
  cases r with
  | error e => exact ⟨.error e, ds, rfl, rfl⟩
  | ok a =>
    obtain ⟨r, es, hs, ht⟩ := hf a s' t' halike.child ds
    simp only [hs, ht]
    exact ⟨r, es, rfl, rfl⟩

/-- One level more around such a step makes no difference. -/
theorem Enclosed.inChild_eq {x : Lowering α} (hx : Enclosed x) : inChild x = x := by
  funext p
  change (inChild x).runFrom p = x.runFrom p
  obtain ⟨r, ds, hs, ht⟩ := hx _ _ p.scope.child_alike_child_child p.lost
  rw [inChild_runFrom]
  simp only [Progress.inner, ht]
  exact hs.symm

theorem map_inChild (f : α → β) (x : Lowering α) : f <$> inChild x = inChild (f <$> x) := by
  funext p
  rw [map_eq_pure_bind, map_eq_pure_bind]
  change (inChild x >>= _).runFrom p = (inChild (x >>= _)).runFrom p
  rw [bind_runFrom, inChild_runFrom, inChild_runFrom, bind_runFrom]
  rcases x.runFrom p.inner with ⟨_ | a, q⟩ <;> rfl

end Lowering

open Lowering (Enclosed Blind)

theorem Stmt.lowerSimple_blind (s : Stmt) : Blind (s.lowerSimple src) := by
  intro t u h lost
  have htwin : s.Twin (.self src) s :=
    twin_of_unplaced rfl (.self (fun _ => rfl) s.spans) (.self (fun _ => rfl) s.calls)
  have hreached : (Comparison.self src).Reached ⟨t, lost⟩ ⟨u, lost⟩ :=
    ⟨h, List.forall₂_same.2 fun _ _ => rfl⟩
  obtain ⟨hresult, halike, hlost⟩ := htwin.lowerSimple_parallel hreached
  refine ⟨_, _, _, _, halike, rfl, ?_⟩
  exact Prod.ext hresult.eq.symm (congrArg (Progress.mk _) (List.forall₂_eq_eq_eq ▸ hlost).symm)

theorem Block.lower_enclosed (b : Block) : Enclosed (b.lower src) :=
  fun _ _ h => b.lower_eq_of_alike h

/-! ## Branches and loops -/

/-- A conditional after its initializer. -/
def lowerBranches (src : Source) (test : Expr) (body : Block) (other : Option Stmt) :
    Lowering (Target.Expr × List Target.Stmt × Target.Branch) := do
  let test' ← Lowering.expr src test
  let body' ← body.lower src
  let other' ← Stmt.lowerOther src other
  return (test', body', other')

/-- A loop after its initializer. -/
def lowerRounds (src : Source) (test : Option Expr) (post : Option Stmt) (body : Block) :
    Lowering (Option Target.Expr × Option (List Fragment) × List Target.Stmt) := do
  let test' ← test.mapM (Lowering.expr src)
  let post' ← post.mapM (Stmt.lowerSimple src)
  let body' ← body.lower src
  return (test', post', body')

section Equations

variable {init : Option Stmt} {test : Expr} {body : Block} {other : Option Stmt} {span : Span}

theorem Stmt.lower_cond_eq : (Stmt.cond init test body other span).lower src
    = Lowering.inChild (init.mapM (Stmt.lowerSimple src) >>= fun init' =>
        (fun x => .cond init' x.1 x.2.1 x.2.2) <$> lowerBranches src test body other) := by
  simp only [Stmt.lower, lowerBranches, map_eq_pure_bind, bind_assoc, pure_bind]

theorem Stmt.lowerOther_chain_eq :
    Stmt.lowerOther src (some (.cond none test body other span))
      = (fun x => .chain x.1 x.2.1 x.2.2) <$> lowerBranches src test body other := by
  simp only [Stmt.lowerOther, lowerBranches, map_eq_pure_bind, bind_assoc, pure_bind]

theorem Stmt.lowerOther_wrapped_eq {i : Stmt} :
    Stmt.lowerOther src (some (.cond (some i) test body other span))
      = Lowering.inChild (i.lowerSimple src >>= fun init' =>
          (fun x => .wrapped init' x.1 x.2.1 x.2.2) <$> lowerBranches src test body other) := by
  simp only [Stmt.lowerOther, lowerBranches, map_eq_pure_bind, bind_assoc, pure_bind]

theorem Stmt.lower_loop_eq {rounds : Option Expr} {post : Option Stmt} :
    (Stmt.loop init rounds post body span).lower src
      = Lowering.inChild (init.mapM (Stmt.lowerSimple src) >>= fun init' =>
          (fun x => .loop (init'.getD []) x.1 (x.2.1.getD []) x.2.2)
            <$> lowerRounds src rounds post body) := by
  simp only [Stmt.lower, lowerRounds, map_eq_pure_bind, bind_assoc, pure_bind]

end Equations

theorem lowerBranches_enclosed_of {other : Option Stmt} (ho : Enclosed (Stmt.lowerOther src other))
    (test : Expr) (body : Block) : Enclosed (lowerBranches src test body other) :=
  (Lowering.enclosed_expr test).bind fun _ => (body.lower_enclosed).bind fun _ =>
    ho.bind fun _ => Lowering.enclosed_pure _

theorem Stmt.lowerOther_enclosed : ∀ other : Option Stmt, Enclosed (Stmt.lowerOther src other)
  | none => Lowering.enclosed_pure _
  | some (.block body) => (body.lower_enclosed).bind fun _ => Lowering.enclosed_pure _
  | some (.cond none test body other span) => by
    rw [Stmt.lowerOther_chain_eq]
    exact (lowerBranches_enclosed_of (lowerOther_enclosed other) test body).map _
  | some (.cond (some init) test body other span) => by
    rw [Stmt.lowerOther_wrapped_eq]
    exact init.lowerSimple_blind.enclosed fun _ =>
      (lowerBranches_enclosed_of (lowerOther_enclosed other) test body).map _
  | some (.ret ..) | some (.assign ..) | some (.decl ..) | some (.step ..) | some (.loop ..)
  | some (.unsupported _) => Lowering.enclosed_reject _ _

theorem lowerAssign_enclosed (op : Operator) :
    ∀ pairs : List (Expr × Expr), Enclosed (lowerAssign src op pairs)
  | [] => Lowering.enclosed_pure _
  | (lhs, rhs) :: pairs => by
    have hpair : Enclosed (lowerPair src op lhs rhs) := by
      refine (Lowering.enclosed_expr rhs).bind fun value => ?_
      split
      · exact Lowering.enclosed_pure _
      · exact (Lowering.enclosed_expr lhs).bind fun _ => Lowering.enclosed_pure _
    exact hpair.bind fun _ => (lowerAssign_enclosed op pairs).bind fun _ => Lowering.enclosed_pure _

/-- A clause that declares nothing does not look at the scope. -/
theorem Stmt.lowerSimple_enclosed {s : Stmt} (hs : s.isPlain = true) :
    Enclosed (s.lowerSimple src) := by
  cases s with
  | assign lhs op rhs span =>
    have hop : op ≠ .define := by simpa [isPlain] using hs
    rw [lowerSimple, if_neg hop]
    split
    · exact Lowering.enclosed_reject _ _
    · exact lowerAssign_enclosed op _
  | decl kind specs span => cases hs
  | step e op span => exact (Lowering.enclosed_expr e).bind fun _ => Lowering.enclosed_pure _
  | ret | cond | loop | block | unsupported => exact Lowering.enclosed_reject _ _

theorem lowerBranches_enclosed (test : Expr) (body : Block) (other : Option Stmt) :
    Enclosed (lowerBranches src test body other) :=
  lowerBranches_enclosed_of (Stmt.lowerOther_enclosed other) test body

theorem lowerRounds_enclosed (test : Option Expr) {post : Option Stmt}
    (hpost : ∀ s ∈ post, s.isPlain = true) (body : Block) :
    Enclosed (lowerRounds src test post body) := by
  have hclause : Enclosed (post.mapM (Stmt.lowerSimple src)) := by
    cases post with
    | none => exact Lowering.enclosed_pure none
    | some s => exact (Stmt.lowerSimple_enclosed (hpost s rfl)).map some
  exact (Lowering.enclosed_option (fun e => Lowering.enclosed_expr e) test).bind fun _ =>
    hclause.bind fun _ => (body.lower_enclosed).bind fun _ => Lowering.enclosed_pure _

/-! ## Texts -/

namespace Target

/-- A conditional, given the text of what follows its body. -/
def condText (init : Option (List Fragment)) (test : Expr) (body : List Stmt) (other : String) :
    String :=
  match init with
  | none => conditional test (Stmt.listText body) other ++ "\n"
  | some fs => enclosed fs (conditional test (Stmt.listText body) other)

theorem Stmt.cond_text_eq (init : Option (List Fragment)) (test : Expr) (body : List Stmt)
    (other : Branch) :
    (Stmt.cond init test body other).text = condText init test body other.text := by
  cases init <;> rw [Stmt.text, condText]

/-- What follows the body stands at one place of the text. -/
theorem condText_eq_append (init : Option (List Fragment)) (test : Expr) (body : List Stmt) :
    ∃ front back, ∀ other, condText init test body other = front ++ other ++ back := by
  cases init with
  | none =>
    refine ⟨"if(" ++ test.text ++ ") " ++ braced (Stmt.listText body), "\n", fun other => ?_⟩
    simp only [condText, conditional, String.append_assoc]
  | some fs =>
    refine ⟨opening ++ Fragment.lines fs
        ++ ("if(" ++ test.text ++ ") " ++ braced (Stmt.listText body)),
      "\n" ++ closing ++ "\n", fun other => ?_⟩
    simp only [condText, enclosed, conditional, String.append_assoc]

theorem Stmt.cond_text_eq_block (fs : List Fragment) (test : Expr) (body : List Stmt)
    (other : Branch) :
    (Stmt.cond (some fs) test body other).text
      = (Stmt.block [.simple fs, .cond none test body other]).text := by
  simp only [Stmt.text, Stmt.listText, enclosed, braced, String.append_assoc, String.append_empty]

theorem Branch.wrapped_text_eq_block (fs : List Fragment) (test : Expr) (body : List Stmt)
    (other : Branch) :
    (Branch.wrapped fs test body other).text
      = (Branch.block [.cond (some fs) test body other]).text := by
  simp only [Branch.text, Stmt.text, Stmt.listText, braced, String.append_assoc,
    String.append_empty]

theorem Stmt.loop_text_eq_block {fs : List Fragment} (hfs : 2 ≤ fs.length) (test : Option Expr)
    (post : List Fragment) (body : List Stmt) :
    (Stmt.loop fs test post body).text
      = (Stmt.block [.simple fs, .loop [] test post body]).text := by
  match fs with
  | f :: g :: fs =>
    simp only [Stmt.text, Stmt.listText, enclosed, braced, String.append_assoc, String.append_empty]

end Target

namespace Stmt

/-- The C++ text of a statement. -/
def lowerText (src : Source) (s : Stmt) : Lowering String := Target.Stmt.text <$> s.lower src

/-! ## Initializers -/

section Initializers

variable {init : Stmt} {test : Expr} {body : Block} {other : Option Stmt}

/-- A conditional without an initializer needs no level of its own. -/
theorem lower_test_eq {span : Span} : lower src (.cond none test body other span)
    = (fun x => .cond none x.1 x.2.1 x.2.2) <$> lowerBranches src test body other := by
  rw [lower_cond_eq, Option.mapM_none, pure_bind]
  exact ((lowerBranches_enclosed test body other).map _).inChild_eq

/-- A statement before others in a block of two. -/
theorem lowerText_block_pair (hi : init.isSimple = true) (s : Stmt) (span : Span) :
    lowerText src (.block (.mk [init, s] span)) = Lowering.inChild (do
      let fs ← init.lowerSimple src
      let t ← s.lower src
      return (Target.Stmt.block [.simple fs, t]).text) := by
  rw [lowerText, lower, Block.lower, lowerList, lowerList, lowerList, lower_of_isSimple hi,
    ← map_eq_pure_bind, Lowering.map_inChild, Lowering.map_inChild]
  simp only [map_eq_pure_bind, bind_assoc, pure_bind]

theorem cond_init_text (hi : init.isSimple = true) (s₀ s₁ s₂ : Span) :
    lowerText src (.cond (some init) test body other s₀)
      = lowerText src (.block (.mk [init, .cond none test body other s₁] s₂)) := by
  rw [lowerText_block_pair hi, lower_test_eq, lowerText, lower_cond_eq, Option.mapM_some,
    Lowering.map_inChild]
  simp only [map_eq_pure_bind, bind_assoc, pure_bind, Target.Stmt.cond_text_eq_block]

theorem isSimple_of_lowerSimple_ok {p q : Progress} {fs : List Fragment}
    (h : (init.lowerSimple src).runFrom p = (.ok fs, q)) : init.isSimple = true := by
  cases lowerSimple_ok h <;> rfl

theorem loop_init_text {rounds : Option Expr} {post : Option Stmt} {p q : Progress}
    {fs : List Fragment} (hinit : (init.lowerSimple src).runFrom p.inner = (.ok fs, q))
    (hfs : 2 ≤ fs.length) (hpost : ∀ s ∈ post, s.isPlain = true) (s₀ s₁ s₂ : Span) :
    (lowerText src (.loop (some init) rounds post body s₀)).runFrom p
      = (lowerText src (.block (.mk [init, .loop none rounds post body s₁] s₂))).runFrom p := by
  have hrounds : lower src (.loop none rounds post body s₁)
      = (fun x => .loop [] x.1 (x.2.1.getD []) x.2.2) <$> lowerRounds src rounds post body := by
    rw [lower_loop_eq, Option.mapM_none, pure_bind]
    exact ((lowerRounds_enclosed rounds hpost body).map _).inChild_eq
  rw [lowerText_block_pair (isSimple_of_lowerSimple_ok hinit), hrounds, lowerText, lower_loop_eq,
    Option.mapM_some, Lowering.map_inChild, Lowering.inChild_runFrom, Lowering.inChild_runFrom]
  simp only [map_eq_pure_bind, bind_assoc, pure_bind, Option.getD_some]
  rw [Lowering.bind_runFrom, Lowering.bind_runFrom, hinit]
  simp only [Target.Stmt.loop_text_eq_block hfs]

end Initializers

/-! ## Conditionals after `else` -/

section Branches

variable {init : Option Stmt} {test : Expr} {body : Block} {other : Option Stmt}

/-- Of the branch after `else` only the text matters. -/
theorem lowerText_cond (span : Span) : lowerText src (.cond init test body other span)
    = Lowering.inChild (do
      let init' ← init.mapM (Stmt.lowerSimple src)
      let test' ← Lowering.expr src test
      let body' ← body.lower src
      let other' ← Target.Branch.text <$> Stmt.lowerOther src other
      return Target.condText init' test' body' other') := by
  rw [lowerText, lower, Lowering.map_inChild]
  simp only [map_eq_pure_bind, bind_assoc, pure_bind, Target.Stmt.cond_text_eq]

/-- A statement that works at levels of its own, by itself in a block. -/
theorem lowerOther_singleton {s : Stmt} (hs : Enclosed (s.lower src)) (span : Span) :
    lowerOther src (some (.block (.mk [s] span))) = (fun t => .block [t]) <$> s.lower src := by
  rw [lowerOther, Block.lower, lowerList, lowerList]
  simp only [pure_bind]
  rw [← map_eq_pure_bind, (hs.bind fun t => Lowering.enclosed_pure [t]).inChild_eq]
  simp only [map_eq_pure_bind, bind_assoc, pure_bind]

theorem wrapped_text {i : Stmt} (s₁ s₂ s₃ : Span) :
    Target.Branch.text <$> lowerOther src (some (.cond (some i) test body other s₁))
      = Target.Branch.text
        <$> lowerOther src (some (.block (.mk [.cond (some i) test body other s₂] s₃))) := by
  have hcond : Enclosed (lower src (.cond (some i) test body other s₂)) := by
    rw [lower_cond_eq, Option.mapM_some, bind_map_left]
    exact i.lowerSimple_blind.enclosed fun _ => (lowerBranches_enclosed test body other).map _
  rw [lowerOther_singleton hcond, lowerOther_wrapped_eq, lower_cond_eq, Option.mapM_some,
    bind_map_left, Lowering.map_inChild, Lowering.map_inChild, Lowering.map_inChild]
  simp only [map_eq_pure_bind, bind_assoc, pure_bind, Target.Branch.wrapped_text_eq_block]

/-- The text of a conditional without an initializer, up to the end of its line. -/
def lowerChain (src : Source) (test : Expr) (body : Block) (other : Option Stmt) :
    Lowering String :=
  (fun x => Target.conditional x.1 (Target.Stmt.listText x.2.1) x.2.2.text)
    <$> lowerBranches src test body other

theorem lowerText_test (span : Span) :
    lowerText src (.cond none test body other span)
      = (fun chain => chain ++ "\n") <$> lowerChain src test body other := by
  rw [lowerText, lower_test_eq, lowerChain, Functor.map_map, Functor.map_map]
  simp only [Target.Stmt.text]

theorem lowerOther_chain_text (span : Span) :
    Target.Branch.text <$> lowerOther src (some (.cond none test body other span))
      = (fun chain => " else " ++ chain) <$> lowerChain src test body other := by
  rw [lowerOther_chain_eq, lowerChain, Functor.map_map, Functor.map_map]
  simp only [Target.Branch.text]

theorem lowerOther_braced_text (s₁ s₂ : Span) :
    Target.Branch.text <$> lowerOther src (some (.block (.mk [.cond none test body other s₁] s₂)))
      = (fun chain => " else " ++ ("\x7b\n" ++ chain ++ "\n\x7d"))
        <$> lowerChain src test body other := by
  have htest : Enclosed (lower src (.cond none test body other s₁)) := by
    rw [lower_test_eq]
    exact (lowerBranches_enclosed test body other).map _
  rw [lowerOther_singleton htest, lower_test_eq, lowerChain, Functor.map_map, Functor.map_map,
    Functor.map_map]
  simp only [Target.Branch.text, Target.Stmt.listText, Target.Stmt.text, Target.braced,
    Target.opening, Target.closing, String.append_assoc, String.append_empty]
  rfl

/-- Branches with texts that are made of one text in two ways. -/
theorem lowerText_cond_of_text {o o' : Option Stmt} {f g : String → String}
    {chain : Lowering String}
    (ho : Target.Branch.text <$> lowerOther src o = f <$> chain)
    (ho' : Target.Branch.text <$> lowerOther src o' = g <$> chain) (s₀ s₁ : Span) (p : Progress) :
    (∃ fault q, (lowerText src (.cond init test body o s₀)).runFrom p = (.error fault, q) ∧
      (lowerText src (.cond init test body o' s₁)).runFrom p = (.error fault, q)) ∨
    ∃ front back text r r' q, chain.runFrom r = (.ok text, r') ∧
      (lowerText src (.cond init test body o s₀)).runFrom p
        = (.ok (front ++ f text ++ back), q) ∧
      (lowerText src (.cond init test body o' s₁)).runFrom p
        = (.ok (front ++ g text ++ back), q) := by
  simp only [lowerText_cond, ho, ho', Lowering.inChild_runFrom]
  rw [Lowering.bind_runFrom, Lowering.bind_runFrom]
  rcases (init.mapM (lowerSimple src)).runFrom p.inner with ⟨_ | init', p₁⟩
  · exact .inl ⟨_, _, rfl, rfl⟩
  dsimp only
  rw [Lowering.bind_runFrom, Lowering.bind_runFrom]
  rcases (Lowering.expr src test).runFrom p₁ with ⟨_ | test', p₂⟩
  · exact .inl ⟨_, _, rfl, rfl⟩
  dsimp only
  rw [Lowering.bind_runFrom, Lowering.bind_runFrom]
  rcases (body.lower src).runFrom p₂ with ⟨_ | body', p₃⟩
  · exact .inl ⟨_, _, rfl, rfl⟩
  dsimp only
  rw [map_eq_pure_bind, map_eq_pure_bind, bind_assoc, bind_assoc, Lowering.bind_runFrom,
    Lowering.bind_runFrom]
  rcases hr : chain.runFrom p₃ with ⟨_ | text, p₄⟩
  · exact .inl ⟨_, _, rfl, rfl⟩
  obtain ⟨front, back, htext⟩ := Target.condText_eq_append init' test' body'
  simp only [pure_bind, htext]
  exact .inr ⟨front, back, text, p₃, p₄, _, hr, rfl, rfl⟩

end Branches

end Stmt

/-- **Headers are blocks.** At every scope, the text or the fault is the same, and so is the
progress: for a conditional with an initializer, and the block of the initializer and the
conditional without it; for a conditional with an initializer after `else`, and the block of it
alone after `else`; and for a loop whose initializer gives two fragments or more and whose last
clause declares nothing, and the block of the initializer and the loop without it. A conditional
without an initializer after `else` differs from the block of it alone by the braces of that
block. -/
theorem header_sugar (src : Source) (p : Progress) :
    (∀ (init : Stmt) (test : Expr) (body : Block) (other : Option Stmt) (s₀ s₁ s₂ : Span),
      init.isSimple = true →
      (Stmt.lowerText src (.cond (some init) test body other s₀)).runFrom p
        = (Stmt.lowerText src (.block (.mk [init, .cond none test body other s₁] s₂))).runFrom p) ∧
    (∀ (init : Option Stmt) (test : Expr) (body : Block) (nested : Stmt) (test' : Expr)
      (body' : Block) (other : Option Stmt) (s₀ s₁ s₂ s₃ s₄ : Span),
      (Stmt.lowerText src (.cond init test body
          (some (.cond (some nested) test' body' other s₁)) s₀)).runFrom p
        = (Stmt.lowerText src (.cond init test body
          (some (.block (.mk [.cond (some nested) test' body' other s₂] s₃))) s₄)).runFrom p) ∧
    (∀ (init : Option Stmt) (test : Expr) (body : Block) (test' : Expr) (body' : Block)
      (other : Option Stmt) (s₀ s₁ s₂ s₃ s₄ : Span),
      (∃ fault q,
        (Stmt.lowerText src (.cond init test body
          (some (.cond none test' body' other s₁)) s₀)).runFrom p = (.error fault, q) ∧
        (Stmt.lowerText src (.cond init test body
          (some (.block (.mk [.cond none test' body' other s₂] s₃))) s₄)).runFrom p
            = (.error fault, q)) ∨
      ∃ front chain back r r' q,
        (Stmt.lowerText src (.cond none test' body' other s₁)).runFrom r
          = (.ok (chain ++ "\n"), r') ∧
        (Stmt.lowerText src (.cond init test body
          (some (.cond none test' body' other s₁)) s₀)).runFrom p
            = (.ok (front ++ (" else " ++ chain) ++ back), q) ∧
        (Stmt.lowerText src (.cond init test body
          (some (.block (.mk [.cond none test' body' other s₂] s₃))) s₄)).runFrom p
            = (.ok (front ++ (" else " ++ ("\x7b\n" ++ chain ++ "\n\x7d")) ++ back), q)) ∧
    ∀ (init : Stmt) (test : Option Expr) (post : Option Stmt) (body : Block) (s₀ s₁ s₂ : Span)
      (fs : List Fragment) (q : Progress), (init.lowerSimple src).runFrom p.inner = (.ok fs, q) →
      2 ≤ fs.length → (∀ s ∈ post, s.isPlain = true) →
      (Stmt.lowerText src (.loop (some init) test post body s₀)).runFrom p
        = (Stmt.lowerText src
            (.block (.mk [init, .loop none test post body s₁] s₂))).runFrom p := by
  refine ⟨?_, ?_, ?_, ?_⟩
  · intro init test body other s₀ s₁ s₂ hi
    rw [Stmt.cond_init_text hi s₀ s₁ s₂]
  · intro init test body nested test' body' other s₀ s₁ s₂ s₃ s₄
    rw [Stmt.lowerText_cond, Stmt.lowerText_cond, Stmt.wrapped_text s₁ s₂ s₃]
  · intro init test body test' body' other s₀ s₁ s₂ s₃ s₄
    rcases Stmt.lowerText_cond_of_text (Stmt.lowerOther_chain_text s₁)
      (Stmt.lowerOther_braced_text s₂ s₃) s₀ s₄ p with
      herror | ⟨front, back, chain, r, r', q, hr, hp, hq⟩
    · exact .inl herror
    · refine .inr ⟨front, chain, back, r, r', q, ?_, hp, hq⟩
      rw [Stmt.lowerText_test, Lowering.map_ok]
      exact ⟨chain, hr, rfl⟩
  · intro init test post body s₀ s₁ s₂ fs q hinit hfs hpost
    exact Stmt.loop_init_text hinit hfs hpost s₀ s₁ s₂

/-- `x, z := 1, 2`. -/
def Stmt.reusing : Stmt :=
  .assign [.name ⟨"x", .none⟩, .name ⟨"z", .none⟩] .define
    [.literal "1" .none, .literal "2" .none] .none

/-- `x++`. -/
def Stmt.raising : Stmt := .step (.name ⟨"x", .none⟩) .inc .none

/-- `x < z`. -/
def Expr.inOrder : Expr := .binary .less (.name ⟨"x", .none⟩) (.name ⟨"z", .none⟩) .none

/-- `x` is declared around the header that assigns to it. -/
theorem header_sugar_reusing :
    let p : Progress := ⟨⟨.chained, ["x"], []⟩, []⟩
    let run s := ((Stmt.lowerText ⟨""⟩ s).runFrom p).1.toOption
    let body : Block := .mk [.raising] .none
    let test : Stmt := .cond none .inOrder body none .none
    let cond : Stmt := .cond (some .reusing) .inOrder body none .none
    run cond = some "\x7b\nx = 1;\nauto z = 2;\nif(x < z) \x7b\nx++;\n\x7d\n\x7d\n" ∧
      run (.block (.mk [.reusing, test] .none)) = run cond ∧
      run (.cond none .inOrder body (some (.block (.mk [cond] .none))) .none)
        = run (.cond none .inOrder body (some cond) .none) ∧
      run (.cond none .inOrder body (some test) .none)
        = some "if(x < z) \x7b\nx++;\n\x7d else if(x < z) \x7b\nx++;\n\x7d\n" ∧
      (∃ front chain back,
        run (.cond none .inOrder body (some test) .none)
          = some (front ++ (" else " ++ chain) ++ back) ∧
        run (.cond none .inOrder body (some (.block (.mk [test] .none))) .none)
          = some (front ++ (" else " ++ ("\x7b\n" ++ chain ++ "\n\x7d")) ++ back)) ∧
      run (.loop (some .reusing) (some .inOrder) (some .raising) body .none)
        = some "\x7b\nx = 1;\nauto z = 2;\nfor(; x < z; x++) \x7b\nx++;\n\x7d\n\x7d\n" ∧
      run (.block (.mk [.reusing, .loop none (some .inOrder) (some .raising) body .none] .none))
        = run (.loop (some .reusing) (some .inOrder) (some .raising) body .none) := by
  intro p run body test cond
  obtain ⟨hinit, hnested, hchain, hloop⟩ := header_sugar ⟨""⟩ p
  refine ⟨by decide, ?_, ?_, by decide, ?_, by decide, ?_⟩
  · exact congrArg (·.1.toOption) (hinit .reusing .inOrder body none .none .none .none rfl).symm
  · exact congrArg (·.1.toOption)
      (hnested none .inOrder body .reusing .inOrder body none .none .none .none .none .none).symm
  · rcases hchain none .inOrder body .inOrder body none .none .none .none .none .none with
      ⟨fault, q, herror, -⟩ | ⟨front, chain, back, -, -, q, -, hp, hq⟩
    · have hok : (run (.cond none .inOrder body (some test) .none)).isSome = true := by decide
      exact absurd hok (by simp [run, test, herror, Except.toOption])
    · exact ⟨front, chain, back, congrArg (·.1.toOption) hp, congrArg (·.1.toOption) hq⟩
  · exact congrArg (·.1.toOption) (hloop .reusing (some .inOrder) (some .raising) body
      .none .none .none _ _ rfl (by decide) (by simp [Stmt.raising, Stmt.isPlain])).symm

end Recast
