import Recast.Proofs.Bindings

/-!
# Binding a name twice

After `x := v` either `x` is declared at the level, or it could be seen from outside and the
statement is the assignment `x = v`. A second `x := w` of the same block fails in the first case;
so two of them can stand in one block only where the block sees an `x` around it, and both then
assign to that one (`repeated_define`).
-/

namespace Recast

variable {src : Source}

/-! ## One name, one value -/

/-- The statement `x := e`. -/
def Stmt.single (x : Ident) (e : Expr) (span : Span) : Stmt :=
  .assign [.name x] .define [e] span

theorem Stmt.single_run (src : Source) (x : Ident) (e : Expr) (span : Span) (p : Progress) :
    DefineRun src ([x].map .name) [e] span p
      (((Stmt.single x e span).lowerSimple src).runFrom p) :=
  Stmt.lowerSimple_define src [.name x] [e] span p

theorem Blames.eq_of_single {x y : Ident} (h : Blames [x] y) : y = x := by
  cases h with
  | @named before after heq =>
    cases before with
    | nil =>
      cases heq
      rfl
    | cons z before => simp at heq
  | blank _ hx => exact (Option.some.inj hx).symm

/-- A name that is declared at the level cannot be bound there again. -/
theorem Stmt.single_of_declared {x : Ident} {p : Progress} (hb : x.isBlank = false)
    (hd : p.scope.isDeclaredHere x.name = true) (e : Expr) (span : Span) :
    ((Stmt.single x e span).lower src).runFrom p
      = (.error (.rejected ⟨.duplicateDeclaration x.name, x.span⟩), p) := by
  obtain ⟨y, hy, herror⟩ := (Stmt.single_run src x e span p).of_repeated (List.cons_ne_nil x []) rfl
    (List.forall_mem_singleton.2 fun _ => hd)
  obtain rfl := hy.eq_of_single
  rw [Stmt.lower_of_isSimple rfl, Lowering.map_runFrom, herror]
  rfl

/-- What a binding did, if it succeeded: the name was not declared at the level. -/
theorem Stmt.single_ok {x : Ident} {e : Expr} {span : Span} {p q : Progress} {t : Target.Stmt}
    (hb : x.isBlank = false) (h : ((Stmt.single x e span).lower src).runFrom p = (.ok t, q)) :
    p.scope.isDeclaredHere x.name = false ∧
      ∃ v, t = .simple [p.scope.binding x v] ∧ q.scope = p.scope.define x := by
  by_cases hd : p.scope.isDeclaredHere x.name = true
  · rw [Stmt.single_of_declared hb hd] at h
    cases h
  · rw [Bool.not_eq_true] at hd
    refine ⟨hd, ?_⟩
    obtain ⟨fs, hfs, rfl⟩ := (Stmt.lower_simple_ok rfl).1 h
    have hnew := (Stmt.single_run src x e span p).of_new rfl ⟨x, List.mem_singleton_self x, hb, hd⟩
    rw [hnew, List.zip_cons_cons, lowerBindings_cons_runFrom] at hfs
    cases he : (e.lower src).result with
    | error f =>
      rw [he] at hfs
      cases hfs
    | ok v =>
      rw [he] at hfs
      cases hfs
      exact ⟨v, rfl, rfl⟩

/-! ## Scopes -/

namespace Scope

theorem binding_of_seen {s : Scope} {x : Ident} (hb : x.isBlank = false)
    (hd : s.isDeclared x.name = true) (v : Target.Expr) : s.binding x v = .rebind x.name v := by
  rw [binding, hb, if_neg Bool.false_ne_true, if_pos hd]

namespace Grows

variable {s t : Scope} {names : List String} {n : String}

theorem isDeclaredHere (h : s.Grows t names) (hn : s.isDeclaredHere n = true) :
    t.isDeclaredHere n = true := by
  rw [isDeclaredHere_iff] at hn ⊢
  rw [h.eq]
  exact List.mem_append_right _ hn

theorem isDeclared (h : s.Grows t names) (hn : s.isDeclared n = true) :
    t.isDeclared n = true := by
  rw [Scope.isDeclared, Bool.or_eq_true] at hn ⊢
  rcases hn with hn | hn
  · exact .inl (h.isDeclaredHere hn)
  · rw [h.eq]
    exact .inr hn

/-- What a grown scope sees from outside was seen before. -/
theorem isDeclared_of_not_here (h : s.Grows t names) (hhere : t.isDeclaredHere n = false)
    (hn : t.isDeclared n = true) : s.isDeclared n = true := by
  rw [Scope.isDeclared, hhere, Bool.false_or, h.eq] at hn
  rw [Scope.isDeclared, hn, Bool.or_true]

end Grows

end Scope

/-! ## Lists of statements -/

theorem Stmt.lowerList_append (as bs : List Stmt) :
    Stmt.lowerList src (as ++ bs) = do
      let ts ← Stmt.lowerList src as
      let us ← Stmt.lowerList src bs
      return ts ++ us := by
  induction as with
  | nil => simp [Stmt.lowerList]
  | cons s as ih => simp [Stmt.lowerList, ih]

theorem Stmt.lowerList_length {ss : List Stmt} {p q : Progress} {ts : List Target.Stmt}
    (h : (Stmt.lowerList src ss).runFrom p = (.ok ts, q)) : ts.length = ss.length := by
  induction ss generalizing p ts with
  | nil =>
    obtain ⟨rfl, -⟩ := Stmt.lowerList_nil_ok.1 h
    rfl
  | cons s ss ih =>
    obtain ⟨t, r, us, -, hu, rfl⟩ := Stmt.lowerList_cons_ok.1 h
    rw [List.length_cons, List.length_cons, ih hu]

/-! ## Two bindings of a name -/

/-- A name can be seen in a block because it can be seen around it. -/
def Scope.Offers (s : Scope) (name : String) : Prop :=
  s.policy = .chained ∧ s.isDeclared name = true

/-- After statements among which a name is bound it is declared at the level, or else it was seen
from outside and the binding is an assignment. -/
theorem declared_or_seen {x : Ident} {e : Expr} {span : Span} {before between : List Stmt}
    {p q : Progress} {ts : List Target.Stmt} (hb : x.isBlank = false)
    (h : (Stmt.lowerList src (before ++ .single x e span :: between)).runFrom p.inner
      = (.ok ts, q)) :
    q.scope.isDeclaredHere x.name = true ∨
      p.scope.Offers x.name ∧ q.scope.isDeclared x.name = true ∧
        ∃ us v vs, ts = us ++ .simple [.rebind x.name v] :: vs ∧
          us.length = before.length ∧ vs.length = between.length := by
  rw [Stmt.lowerList_append] at h
  obtain ⟨us, r, rest, hbefore, hrest, rfl⟩ := Lowering.both_ok.1 h
  obtain ⟨t, r', vs, hsingle, hbetween, rfl⟩ := Stmt.lowerList_cons_ok.1 hrest
  obtain ⟨hnot, v, rfl, hr'⟩ := Stmt.single_ok hb hsingle
  have hgrows := Stmt.lowerList_grows hbetween
  rw [hr'] at hgrows
  by_cases hd : r.scope.isDeclared x.name = true
  · -- it is not declared at the level, so it is seen from outside, where statements change nothing
    rw [Scope.define_of_seen hd] at hgrows
    have hchild : p.scope.child.isDeclared x.name = true :=
      (Stmt.lowerList_grows hbefore).isDeclared_of_not_here hnot hd
    rw [Scope.binding_of_seen hb hd]
    exact .inr ⟨Scope.isDeclared_child.1 hchild, hgrows.isDeclared hd, us, v, vs, rfl,
      Stmt.lowerList_length hbefore, Stmt.lowerList_length hbetween⟩
  · rw [Scope.define_of_new hb (Bool.not_eq_true _ ▸ hd)] at hgrows
    refine .inl (hgrows.isDeclaredHere ?_)
    rw [Scope.isDeclaredHere_iff]
    exact List.mem_cons_self

/-- Statements before which a name was declared fail where they bind it. -/
theorem Block.lower_of_declared {upTo after : List Stmt} {y : Ident} {e : Expr} {s span : Span}
    {p r : Progress} {ts : List Target.Stmt} (hb : y.isBlank = false)
    (hts : (Stmt.lowerList src upTo).runFrom p.inner = (.ok ts, r))
    (hd : r.scope.isDeclaredHere y.name = true) :
    ∃ q, ((Block.mk (upTo ++ .single y e s :: after) span).lower src).runFrom p
      = (.error (.rejected ⟨.duplicateDeclaration y.name, y.span⟩), q) := by
  rw [Block.lower, Lowering.inChild_runFrom, Stmt.lowerList_append, Lowering.bind_runFrom, hts]
  simp only [Stmt.lowerList, Lowering.bind_runFrom, Stmt.single_of_declared hb hd]
  exact ⟨_, rfl⟩

/-- **Two bindings of a name in a block.** The lowering fails unless levels are chained and the name
can be seen around the block; it fails over the second binding if nothing before that fails. Where
it succeeds, both bindings are assignments to the name that is seen. -/
theorem repeated_define (src : Source) {x y : Ident} (hb : x.isBlank = false)
    (hxy : y.name = x.name) (e₁ e₂ : Expr) (s₁ s₂ span : Span) (before between after : List Stmt)
    (p : Progress) :
    let upTo := before ++ .single x e₁ s₁ :: between
    let run := ((Block.mk (upTo ++ .single y e₂ s₂ :: after) span).lower src).runFrom p
    (¬ p.scope.Offers x.name → (∃ f q, run = (.error f, q)) ∧
      ∀ ts r, (Stmt.lowerList src upTo).runFrom p.inner = (.ok ts, r) →
        ∃ q, run = (.error (.rejected ⟨.duplicateDeclaration x.name, y.span⟩), q)) ∧
    ∀ ts q, run = (.ok ts, q) → p.scope.Offers x.name ∧
      ∃ us v vs w ws,
        ts = us ++ .simple [.rebind x.name v] :: (vs ++ .simple [.rebind x.name w] :: ws) ∧
        us.length = before.length ∧ vs.length = between.length := by
  have hby : y.isBlank = false := by rwa [Ident.isBlank, hxy]
  intro upTo run
  have hok : ∀ ts q, run = (.ok ts, q) → p.scope.Offers x.name ∧
      ∃ us v vs w ws,
        ts = us ++ .simple [.rebind x.name v] :: (vs ++ .simple [.rebind x.name w] :: ws) ∧
        us.length = before.length ∧ vs.length = between.length := by
    intro ts q h
    obtain ⟨r, hr, -⟩ := Block.lower_ok.1 h
    rw [Stmt.lowerList_append] at hr
    obtain ⟨ts₁, r₁, rest, hupTo, hrest, rfl⟩ := Lowering.both_ok.1 hr
    obtain ⟨t, r₂, ws, hsecond, -, rfl⟩ := Stmt.lowerList_cons_ok.1 hrest
    obtain ⟨hnot, w, rfl, -⟩ := Stmt.single_ok hby hsecond
    rw [hxy] at hnot
    rcases declared_or_seen hb hupTo with hd | ⟨hoffers, hd, us, v, vs, rfl, hus, hvs⟩
    · rw [hnot] at hd
      cases hd
    · rw [← hxy] at hd
      refine ⟨hoffers, us, v, vs, w, ws, ?_, hus, hvs⟩
      rw [Scope.binding_of_seen hby hd, hxy, List.append_assoc, List.cons_append]
  refine ⟨fun hno => ⟨?_, ?_⟩, hok⟩
  · rcases hrun : run with ⟨f | ts, q⟩
    · exact ⟨f, q, rfl⟩
    · exact absurd (hok ts q hrun).1 hno
  · intro ts r hupTo
    rcases declared_or_seen hb hupTo with hd | ⟨hoffers, -⟩
    · rw [← hxy] at hd ⊢
      exact Block.lower_of_declared hby hupTo hd
    · exact absurd hoffers hno

/-- `x := 1` and, on the next line, `x := 2`. -/
def Source.twice : Source := ⟨"x := 1\nx := 2"⟩

/-- The block of these two statements. -/
def Block.twice : Block :=
  .mk ([.single ⟨"x", ⟨0, 1⟩⟩ (.literal "1" ⟨5, 6⟩) ⟨0, 6⟩] ++
    [.single ⟨"x", ⟨7, 8⟩⟩ (.literal "2" ⟨12, 13⟩) ⟨7, 13⟩]) ⟨0, 13⟩

/-- Without an `x` around it the block is refused, whether levels are chained or not. -/
theorem repeated_define_twice :
    Ident.isBlank ⟨"x", ⟨0, 1⟩⟩ = false ∧ ∀ policy, ¬ (Scope.root policy).Offers "x" ∧
      ∃ q, (Block.twice.lower .twice).runFrom ⟨.root policy, []⟩
        = (.error (.rejected ⟨.duplicateDeclaration "x", ⟨7, 8⟩⟩), q) := by
  have hb : Ident.isBlank ⟨"x", ⟨0, 1⟩⟩ = false := rfl
  refine ⟨hb, fun policy => ?_⟩
  have hno : ¬ (Scope.root policy).Offers "x" := fun h => Bool.false_ne_true h.2
  refine ⟨hno, ?_⟩
  have hxy : (Ident.mk "x" ⟨7, 8⟩).name = (Ident.mk "x" ⟨0, 1⟩).name := rfl
  obtain ⟨hfails, -⟩ := repeated_define .twice hb hxy (.literal "1" ⟨5, 6⟩)
    (.literal "2" ⟨12, 13⟩) ⟨0, 6⟩ ⟨7, 13⟩ ⟨0, 13⟩ [] [] [] ⟨.root policy, []⟩
  cases policy with
  | isolated => exact (hfails hno).2 _ _ rfl
  | chained => exact (hfails hno).2 _ _ rfl

/-- Where the block sees an `x` of a level around it, the same two statements are lowered. -/
theorem repeated_define_assigns :
    (¬ ∃ f q, (Block.twice.lower .twice).runFrom ⟨⟨.chained, ["x"], []⟩, []⟩ = (.error f, q)) ∧
    ∃ ts q, (Block.twice.lower .twice).runFrom ⟨⟨.chained, ["x"], []⟩, []⟩ = (.ok ts, q) ∧
      Target.Stmt.listText ts = "x = 1;\nx = 2;\n" := by
  refine ⟨?_, _, _, rfl, ?_⟩
  · rintro ⟨f, q, h⟩
    cases h
  · decide

end Recast
