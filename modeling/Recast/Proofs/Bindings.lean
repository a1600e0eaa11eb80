import Recast.Proofs.Chained
import Recast.Proofs.Declared
import Recast.Proofs.Faults
import Recast.Proofs.Supported

/-!
# Bindings

What `:=` does, in all cases. The scope after some of its bindings is a fold over their names
(`Scope.defineAll`), and a name becomes known by it just if it was known or is among them
(`Scope.isDeclared_defineAll`). So what becomes of a value can be told from the scope before the
statement and the names to the left of its own (`define_outcome`).
-/

namespace Recast

open Target (Fragment)

/-! ## The scope between bindings -/

namespace Scope

/-- The scope after a binding: the name is declared, unless it is blank or can be seen. -/
def define (s : Scope) (x : Ident) : Scope :=
  if x.isBlank || s.isDeclared x.name then s else { s with here := x.name :: s.here }

/-- The scope after several bindings, in order. -/
def defineAll (s : Scope) (names : List Ident) : Scope := names.foldl define s

/-- The fragment of a binding. -/
def binding (s : Scope) (x : Ident) (value : Target.Expr) : Fragment :=
  if x.isBlank then .discard value
  else if s.isDeclared x.name then .rebind x.name value
  else .bind x.name value

/-- The fragments of several bindings, in order. -/
def bindings (s : Scope) : List (Ident × Target.Expr) → List Fragment
  | [] => []
  | (x, value) :: pairs => s.binding x value :: (s.define x).bindings pairs

@[simp] theorem defineAll_nil (s : Scope) : s.defineAll [] = s := rfl

@[simp] theorem defineAll_cons (s : Scope) (x : Ident) (names : List Ident) :
    s.defineAll (x :: names) = (s.define x).defineAll names := rfl

theorem define_of_blank {s : Scope} {x : Ident} (hb : x.isBlank = true) : s.define x = s := by
  rw [define, if_pos (by rw [hb, Bool.true_or])]

theorem define_of_seen {s : Scope} {x : Ident} (hd : s.isDeclared x.name = true) :
    s.define x = s := by
  rw [define, if_pos (by rw [hd, Bool.or_true])]

theorem define_of_new {s : Scope} {x : Ident} (hb : x.isBlank = false)
    (hd : s.isDeclared x.name = false) : s.define x = { s with here := x.name :: s.here } := by
  rw [define, if_neg (by simp [hb, hd])]

theorem isDeclared_define {s : Scope} {x : Ident} {n : String} :
    (s.define x).isDeclared n = true ↔ s.isDeclared n = true ∨ n ∈ Ident.visible [x] := by
  by_cases hb : x.isBlank = true
  · simp [define_of_blank hb, Ident.visible_of_blank hb]
  · rw [Bool.not_eq_true] at hb
    rw [Ident.visible_of_not_blank hb, List.mem_singleton]
    by_cases hd : s.isDeclared x.name = true
    · rw [define_of_seen hd]
      exact ⟨.inl, fun h => h.elim id fun e => e ▸ hd⟩
    · rw [define_of_new hb (Bool.not_eq_true _ ▸ hd)]
      simp only [isDeclared, isDeclaredHere, List.contains_cons, Bool.or_eq_true, beq_iff_eq]
      tauto

/-- What can be seen after some bindings is what could be seen before, and their names. -/
theorem isDeclared_defineAll {s : Scope} {names : List Ident} {n : String} :
    (s.defineAll names).isDeclared n = true ↔ s.isDeclared n = true ∨ n ∈ Ident.visible names := by
  induction names generalizing s with
  | nil => simp [Ident.visible]
  | cons x names ih =>
    rw [defineAll_cons, ih, isDeclared_define, Ident.visible_cons x names, List.mem_append,
      or_assoc]

theorem bindings_length (s : Scope) (pairs : List (Ident × Target.Expr)) :
    (s.bindings pairs).length = pairs.length := by
  induction pairs generalizing s with
  | nil => rfl
  | cons pair pairs ih => rw [bindings, List.length_cons, List.length_cons, ih]

/-- The fragment at a place is that of a binding after those to the left of it. -/
theorem bindings_getElem? {s : Scope} {pairs : List (Ident × Target.Expr)} {i : Nat} {x : Ident}
    {v : Target.Expr} (h : pairs[i]? = some (x, v)) :
    (s.bindings pairs)[i]? = some ((s.defineAll ((pairs.map Prod.fst).take i)).binding x v) := by
  induction pairs generalizing s i with
  | nil => cases h
  | cons pair pairs ih =>
    cases i with
    | zero =>
      cases h
      rfl
    | succ i => exact ih h

end Scope

/-! ## Right sides -/

section Sides

variable {src : Source}

namespace Expr

/-- All expressions have values, which are these. -/
abbrev Values (src : Source) (es : List Expr) (values : List Target.Expr) : Prop :=
  List.Forall₂ (fun e v => (e.lower src).result = .ok v) es values

/-- The first expression that is refused is the one at this place. -/
structure Stops (src : Source) (es : List Expr) (place : Nat) (f : Fault) : Prop where
  kept : ∀ e ∈ es.take place, ∃ v, (e.lower src).result = .ok v
  refused : ∃ e, es[place]? = some e ∧ (e.lower src).result = .error f

theorem Stops.zero {e : Expr} {es : List Expr} {f : Fault} (h : (e.lower src).result = .error f) :
    Stops src (e :: es) 0 f :=
  ⟨fun _ hb => (List.not_mem_nil hb).elim, e, rfl, h⟩

theorem stops_succ {e : Expr} {es : List Expr} {k : Nat} {f : Fault} :
    Stops src (e :: es) (k + 1) f ↔ (∃ v, (e.lower src).result = .ok v) ∧ Stops src es k f := by
  constructor
  · intro h
    obtain ⟨hkept, hrefused⟩ := h
    rw [List.take_succ_cons, List.forall_mem_cons] at hkept
    exact ⟨hkept.1, hkept.2, hrefused⟩
  · intro h
    obtain ⟨hr, hkept, hrefused⟩ := h
    refine ⟨?_, hrefused⟩
    rw [List.take_succ_cons, List.forall_mem_cons]
    exact ⟨hr, hkept⟩

theorem values_or_stops (src : Source) (es : List Expr) :
    (∃ values, Values src es values) ∨ ∃ k f, Stops src es k f := by
  induction es with
  | nil => exact .inl ⟨[], .nil⟩
  | cons e es ih =>
    cases he : (e.lower src).result with
    | error f => exact .inr ⟨0, f, .zero he⟩
    | ok v =>
      rcases ih with ⟨values, h⟩ | ⟨k, f, h⟩
      · exact .inl ⟨v :: values, .cons he h⟩
      · exact .inr ⟨k + 1, f, stops_succ.2 ⟨⟨v, he⟩, h⟩⟩

end Expr

/-! No expression is refused because of a name. -/

/-- An outcome that is no fault over a name declared twice. -/
def NoDuplicate {α : Type} (r : Recorded α) : Prop :=
  ∀ f, r.result = .error f → f.isDuplicate = false

section NoDuplicate

variable {α β : Type}

theorem noDuplicate_pure (a : α) : NoDuplicate (pure a : Recorded α) := by
  intro f h
  cases h

theorem noDuplicate_reject {cause : String → Cause} {span : Span}
    (h : ∀ t, (Fault.rejected ⟨cause t, span⟩).isDuplicate = false) :
    NoDuplicate (.ofExcept (.error (src.reject cause span)) : Recorded α) := by
  intro f hf
  cases hf
  unfold Source.reject
  cases src.slice? span with
  | none => rfl
  | some t => exact h t

theorem noDuplicate_degrade (loss : Loss) (span : Span) :
    NoDuplicate (.degrade src loss span) := by
  intro f hf
  unfold Recorded.degrade Source.quote at hf
  cases hs : src.slice? span with
  | none =>
    rw [hs] at hf
    cases hf
    rfl
  | some t =>
    rw [hs] at hf
    cases hf

theorem NoDuplicate.bind {r : Recorded α} {k : α → Recorded β} (hr : NoDuplicate r)
    (hk : ∀ a, NoDuplicate (k a)) : NoDuplicate (r >>= k) := by
  intro f hf
  rcases Recorded.bind_error.1 hf with h | ⟨a, -, h⟩
  · exact hr f h
  · exact hk a f h

end NoDuplicate

namespace Expr

theorem noDuplicate_dropped (span : Span) (n : Nat) : NoDuplicate (dropped src span n) := by
  cases n with
  | zero => exact noDuplicate_pure ()
  | succ n => exact noDuplicate_degrade _ span

mutual

theorem noDuplicate_lower : ∀ e : Expr, NoDuplicate (e.lower src)
  | .literal .. | .name _ => noDuplicate_pure _
  | .binary op l r span => by
    have ho : op.isBinary = true := rfl
    rw [lower, if_pos ho]
    exact (noDuplicate_lower l).bind fun _ => (noDuplicate_lower r).bind fun _ => noDuplicate_pure _
  | .unary op e span => by
    rw [lower]
    split
    · exact (noDuplicate_lower e).bind fun _ => noDuplicate_pure _
    · exact noDuplicate_reject fun _ => rfl
  | .paren e span => by
    rw [lower]
    exact (noDuplicate_lower e).bind fun _ => noDuplicate_pure _
  | .call callee args span => by
    rw [lower]
    split
    · exact noDuplicate_lowerMessage span args
    · exact (noDuplicate_degrade _ span).bind fun _ => noDuplicate_pure _
  | .selector .. | .unsupported _ => noDuplicate_reject fun _ => rfl

theorem noDuplicate_lowerMessage (span : Span) :
    ∀ args : List Expr, NoDuplicate (lowerMessage src span args)
  | [] => noDuplicate_reject fun _ => rfl
  | first :: rest => by
    rw [lowerMessage]
    exact (noDuplicate_lower first).bind fun _ =>
      (noDuplicate_dropped span rest.length).bind fun _ => noDuplicate_pure _

end

end Expr

end Sides

/-! ## The bindings -/

section Runs

variable {src : Source}

/-- One binding: only the value can be refused, since a name is declared when it cannot be seen. -/
theorem lowerBinding_runFrom (x : Ident) (rhs : Expr) (p : Progress) :
    (lowerBinding src x rhs).runFrom p =
      match (rhs.lower src).result with
      | .ok v => (.ok (p.scope.binding x v), ⟨p.scope.define x, p.lost ++ (rhs.lower src).lost⟩)
      | .error f => (.error f, ⟨p.scope, p.lost ++ (rhs.lower src).lost⟩) := by
  unfold lowerBinding
  rw [Lowering.bind_runFrom, Lowering.expr_runFrom]
  rcases rhs.lower src with ⟨f | v, lost⟩
  · rfl
  · by_cases hb : x.isBlank = true
    · simp only [if_pos hb, Scope.binding, Scope.define_of_blank hb]
      rfl
    · simp only [if_neg hb, Scope.binding, Lowering.bind_runFrom, Lowering.scope_runFrom]
      by_cases hd : p.scope.isDeclared x.name = true
      · simp only [if_pos hd, Scope.define_of_seen hd]
        rfl
      · -- what cannot be seen is not declared at the level, so declaring it is no duplicate
        have hhere : p.scope.isDeclaredHere x.name = false :=
          Scope.isDeclaredHere_eq_false.2
            (Scope.not_mem_here_of_isDeclared (Bool.not_eq_true _ ▸ hd))
        simp only [if_neg hd, Lowering.bind_runFrom, Lowering.declare_runFrom, Scope.declare?,
          if_neg hb, hhere, Bool.false_eq_true, if_false,
          Scope.define_of_new (Bool.not_eq_true _ ▸ hb) (Bool.not_eq_true _ ▸ hd)]
        rfl

theorem lowerBindings_cons_runFrom (x : Ident) (rhs : Expr) (pairs : List (Ident × Expr))
    (p : Progress) :
    (lowerBindings src ((x, rhs) :: pairs)).runFrom p =
      match (rhs.lower src).result with
      | .ok v =>
        match (lowerBindings src pairs).runFrom
            ⟨p.scope.define x, p.lost ++ (rhs.lower src).lost⟩ with
        | (.ok fs, q) => (.ok (p.scope.binding x v :: fs), q)
        | (.error f, q) => (.error f, q)
      | .error f => (.error f, ⟨p.scope, p.lost ++ (rhs.lower src).lost⟩) := by
  rw [lowerBindings, Lowering.bind_runFrom, lowerBinding_runFrom]
  rcases rhs.lower src with ⟨f | v, lost⟩
  · rfl
  · simp only [Lowering.bind_runFrom]
    rcases (lowerBindings src pairs).runFrom ⟨p.scope.define x, p.lost ++ lost⟩ with ⟨f | fs, q⟩
    · rfl
    · rfl

/-- If all right sides have values, each name is given its own. -/
theorem lowerBindings_of_values {names : List Ident} {rhs : List Expr} {values : List Target.Expr}
    (hl : names.length = rhs.length) (h : Expr.Values src rhs values) (p : Progress) :
    ∃ lost, (lowerBindings src (names.zip rhs)).runFrom p =
      (.ok (p.scope.bindings (names.zip values)), ⟨p.scope.defineAll names, lost⟩) := by
  induction h generalizing names p with
  | nil =>
    obtain rfl := List.length_eq_zero_iff.1 hl
    exact ⟨p.lost, rfl⟩
  | @cons e v rhs values he h ih =>
    cases names with
    | nil => cases hl
    | cons x names =>
      obtain ⟨lost', hrun⟩ :=
        ih (Nat.succ.inj hl) ⟨p.scope.define x, p.lost ++ (e.lower src).lost⟩
      refine ⟨lost', ?_⟩
      rw [List.zip_cons_cons, lowerBindings_cons_runFrom, he]
      simp only [hrun]
      rfl

/-- Otherwise the names before the first value that is refused are given theirs. -/
theorem lowerBindings_of_stops {names : List Ident} {rhs : List Expr} {k : Nat} {f : Fault}
    (hl : names.length = rhs.length) (h : Expr.Stops src rhs k f) (p : Progress) :
    ∃ lost, (lowerBindings src (names.zip rhs)).runFrom p =
      (.error f, ⟨p.scope.defineAll (names.take k), lost⟩) := by
  induction rhs generalizing names k p with
  | nil =>
    obtain ⟨e, he, -⟩ := h.refused
    cases he
  | cons e rhs ih =>
    cases names with
    | nil => cases hl
    | cons x names =>
      rw [List.zip_cons_cons, lowerBindings_cons_runFrom]
      cases k with
      | zero =>
        obtain ⟨e', he', he⟩ := h.refused
        cases he'
        exact ⟨_, by rw [he]; rfl⟩
      | succ k =>
        obtain ⟨⟨v, he⟩, h⟩ := Expr.stops_succ.1 h
        obtain ⟨lost', hrun⟩ :=
          ih (Nat.succ.inj hl) h ⟨p.scope.define x, p.lost ++ (e.lower src).lost⟩
        refine ⟨lost', ?_⟩
        rw [he]
        simp only [hrun]
        rfl

/-! ## Before the bindings -/

theorem Expr.names_map_name (names : List Ident) :
    (names.map Expr.name).mapM Expr.name? = some names := by
  induction names with
  | nil => rfl
  | cons x names ih => simp [ih, Expr.name?]

theorem Expr.names_eq_none_iff {es : List Expr} :
    es.mapM Expr.name? = none ↔ ∃ e ∈ es, ∀ x, e ≠ .name x := by
  rw [Option.eq_none_iff_forall_ne_some, ← not_exists, Expr.names_iff]
  push Not
  rfl

/-- How a `:=` runs, by its sides: it is refused as a whole, or it is its bindings. -/
inductive DefineRun (src : Source) (lhs rhs : List Expr) (span : Span) (p : Progress) :
    Except Fault (List Fragment) × Progress → Prop
  | count (hl : lhs.length ≠ rhs.length) :
      DefineRun src lhs rhs span p (.error (src.reject .unsupportedStatement span), p)
  | noName (hn : lhs.mapM Expr.name? = none) :
      DefineRun src lhs rhs span p (.error (src.reject .unsupportedStatement span), p)
  | noNew {names : List Ident} {x : Ident} (hn : lhs.mapM Expr.name? = some names)
      (hr : repeatedName? p.scope names = some x) :
      DefineRun src lhs rhs span p (.error (.rejected ⟨.duplicateDeclaration x.name, x.span⟩), p)
  | binds {names : List Ident} (hn : lhs.mapM Expr.name? = some names)
      (hl : names.length = rhs.length) (hr : repeatedName? p.scope names = none) :
      DefineRun src lhs rhs span p ((lowerBindings src (names.zip rhs)).runFrom p)

theorem Stmt.lowerSimple_define (src : Source) (lhs rhs : List Expr) (span : Span) (p : Progress) :
    DefineRun src lhs rhs span p
      (((Stmt.assign lhs .define rhs span).lowerSimple src).runFrom p) := by
  rw [Stmt.lowerSimple]
  by_cases hl : lhs.length = rhs.length
  · have hc : (lhs.length != rhs.length || !Operator.define.isAssignment) = false := by
      rw [hl, bne_self_eq_false]
      rfl
    rw [hc, if_neg Bool.false_ne_true, if_pos rfl]
    unfold lowerDefine
    cases hn : lhs.mapM Expr.name? with
    | none => exact .noName hn
    | some names =>
      simp only [Lowering.bind_runFrom, Lowering.scope_runFrom]
      cases hr : repeatedName? p.scope names with
      | some x => exact .noNew hn hr
      | none => exact .binds hn ((Expr.names_length hn).trans hl) hr
  · have hc : (lhs.length != rhs.length) = true := bne_iff_ne.2 hl
    rw [hc]
    exact .count hl

/-- The name that a `:=` repeats is the first that is not blank, or the first of all. -/
inductive Blames (names : List Ident) (x : Ident) : Prop
  | named {before after : List Ident} (heq : names = before ++ x :: after)
      (hbefore : ∀ y ∈ before, y.isBlank = true) (hx : x.isBlank = false)
  | blank (hblank : ∀ y ∈ names, y.isBlank = true) (hx : names.head? = some x)

theorem blames_of_repeatedName? {s : Scope} {names : List Ident} {x : Ident}
    (h : repeatedName? s names = some x) : Blames names x := by
  unfold repeatedName? at h
  split at h
  · cases h
  · cases hf : names.find? (fun y => !y.isBlank) with
    | none =>
      rw [hf] at h
      refine .blank (fun y hy => ?_) h
      simpa using List.find?_eq_none.1 hf y hy
    | some y =>
      rw [hf] at h
      cases h
      obtain ⟨hx, before, after, heq, hbefore⟩ := List.find?_eq_some_iff_append.1 hf
      exact .named heq (by simpa using hbefore) (by simpa using hx)

namespace DefineRun

variable {lhs rhs : List Expr} {names : List Ident} {span : Span} {p : Progress}
  {run : Except Fault (List Fragment) × Progress}

/-- A left side that is no name: the statement as a whole is refused. -/
theorem of_not_name (h : DefineRun src lhs rhs span p run) (hl : lhs.length = rhs.length)
    (hno : ∃ e ∈ lhs, ∀ x, e ≠ .name x) :
    run = (.error (src.reject .unsupportedStatement span), p) := by
  rw [← Expr.names_eq_none_iff] at hno
  cases h with
  | count hne => exact absurd hl hne
  | noName => rfl
  | noNew hn | binds hn =>
    rw [hno] at hn
    cases hn

/-- Names of which none is new: the statement is a duplicate. -/
theorem of_repeated (h : DefineRun src (names.map .name) rhs span p run) (hne : names ≠ [])
    (hl : names.length = rhs.length)
    (hd : ∀ x ∈ names, x.isBlank = false → p.scope.isDeclaredHere x.name = true) :
    ∃ x, Blames names x ∧
      run = (.error (.rejected ⟨.duplicateDeclaration x.name, x.span⟩), p) := by
  have hnames := Expr.names_map_name names
  cases h with
  | count hc => exact absurd ((List.length_map _).trans hl) hc
  | noName hn =>
    rw [hnames] at hn
    cases hn
  | noNew hn hr =>
    rw [hnames] at hn
    cases hn
    exact ⟨_, blames_of_repeatedName? hr, rfl⟩
  | binds hn _ hr =>
    rw [hnames] at hn
    cases hn
    rcases repeatedName?_eq_none_iff.1 hr with rfl | ⟨x, hx, hb, hnot⟩
    · exact absurd rfl hne
    · rw [hd x hx hb] at hnot
      cases hnot

/-- Names of which one is new: they are bound from left to right. -/
theorem of_new (h : DefineRun src (names.map .name) rhs span p run)
    (hl : names.length = rhs.length)
    (hnew : ∃ x ∈ names, x.isBlank = false ∧ p.scope.isDeclaredHere x.name = false) :
    run = (lowerBindings src (names.zip rhs)).runFrom p := by
  have hnames := Expr.names_map_name names
  cases h with
  | count hc => exact absurd ((List.length_map _).trans hl) hc
  | noName hn =>
    rw [hnames] at hn
    cases hn
  | noNew hn hr =>
    rw [hnames] at hn
    cases hn
    rw [repeatedName?_eq_none_iff.2 (.inr hnew)] at hr
    cases hr
  | binds hn =>
    rw [hnames] at hn
    cases hn
    rfl

end DefineRun

/-! ## All cases -/

/-- The fragment at a place, told from the scope before the bindings. -/
theorem Scope.bindings_zip_getElem? {s : Scope} {names : List Ident} {values : List Target.Expr}
    (hl : names.length = values.length) {i : Nat} {x : Ident} {v : Target.Expr}
    (hx : names[i]? = some x) (hv : values[i]? = some v) :
    (s.bindings (names.zip values))[i]? = some (
      if x.isBlank then .discard v
      else if s.isDeclared x.name ∨ x.name ∈ Ident.visible (names.take i) then .rebind x.name v
      else .bind x.name v) := by
  have hpair : (names.zip values)[i]? = some (x, v) := by
    rw [List.getElem?_zip_eq_some]
    exact ⟨hx, hv⟩
  rw [Scope.bindings_getElem? hpair, List.map_fst_zip hl.le, Scope.binding]
  simp only [Scope.isDeclared_defineAll]

/-- **All of `:=`.** A left side that is no name makes it an unsupported statement. If every name
that is not blank is declared at the current level, it is a duplicate of the first of these names,
or of the first name if all are blank. In both cases the scope stays as it was. Otherwise it fails
just if a right side does, with the fault of the first one that does, and never over a duplicate;
and if all right sides have values it yields one fragment for each, `(void)(v)`, `x = v` or
`auto x = v`. -/
theorem define_outcome (src : Source) {lhs rhs : List Expr} (hn : lhs ≠ [])
    (hl : lhs.length = rhs.length) (span : Span) (p : Progress) :
    let run := ((Stmt.assign lhs .define rhs span).lowerSimple src).runFrom p
    ((∃ e ∈ lhs, ∀ x, e ≠ .name x) → run = (.error (src.reject .unsupportedStatement span), p)) ∧
    ∀ names : List Ident, lhs = names.map .name →
      ((∀ x ∈ names, x.isBlank = false → p.scope.isDeclaredHere x.name = true) →
        ∃ x, Blames names x ∧
          run = (.error (.rejected ⟨.duplicateDeclaration x.name, x.span⟩), p)) ∧
      ((∃ x ∈ names, x.isBlank = false ∧ p.scope.isDeclaredHere x.name = false) →
        (∀ f, (∃ q, run = (.error f, q)) ↔ ∃ k, Expr.Stops src rhs k f) ∧
        (∀ f q, run = (.error f, q) → f.isDuplicate = false) ∧
        ∀ values, Expr.Values src rhs values →
          ∃ fs q, run = (.ok fs, q) ∧ fs.length = lhs.length ∧
            ∀ (i : Nat) (x : Ident) (v : Target.Expr), names[i]? = some x → values[i]? = some v →
              fs[i]? = some (
                if x.isBlank then .discard v
                else if p.scope.isDeclared x.name ∨ x.name ∈ Ident.visible (names.take i) then
                  .rebind x.name v
                else .bind x.name v)) := by
  intro run
  have hdefine : DefineRun src lhs rhs span p run := Stmt.lowerSimple_define src lhs rhs span p
  refine ⟨hdefine.of_not_name hl, ?_⟩
  rintro names rfl
  rw [List.length_map] at hl
  refine ⟨hdefine.of_repeated (fun h => hn (by rw [h]; rfl)) hl, ?_⟩
  intro hnew
  have hrun : run = (lowerBindings src (names.zip rhs)).runFrom p := hdefine.of_new hl hnew
  have hstops : ∀ f, (∃ q, run = (.error f, q)) ↔ ∃ k, Expr.Stops src rhs k f := by
    intro f
    constructor
    · rintro ⟨q, hq⟩
      rcases Expr.values_or_stops src rhs with ⟨values, h⟩ | ⟨k, f', h⟩
      · obtain ⟨lost, hok⟩ := lowerBindings_of_values hl h p
        rw [hrun, hok] at hq
        cases hq
      · obtain ⟨lost, herror⟩ := lowerBindings_of_stops hl h p
        rw [hrun, herror] at hq
        cases hq
        exact ⟨k, h⟩
    · rintro ⟨k, h⟩
      obtain ⟨lost, herror⟩ := lowerBindings_of_stops hl h p
      exact ⟨_, hrun.trans herror⟩
  refine ⟨hstops, ?_, ?_⟩
  · intro f q hq
    obtain ⟨k, h⟩ := (hstops f).1 ⟨q, hq⟩
    obtain ⟨e, -, he⟩ := h.refused
    exact Expr.noDuplicate_lower e f he
  · intro values h
    have hlv : names.length = values.length := hl.trans h.length_eq
    obtain ⟨lost, hok⟩ := lowerBindings_of_values hl h p
    refine ⟨_, _, hrun.trans hok, ?_, fun i x v => Scope.bindings_zip_getElem? hlv⟩
    rw [Scope.bindings_length, List.length_zip, List.length_map, ← hlv, Nat.min_self]

/-- The left side of `x, _, y, x := 1, 2, 3, 4`. -/
def Ident.mixed : List Ident :=
  [⟨"x", ⟨0, 1⟩⟩, ⟨"_", ⟨3, 4⟩⟩, ⟨"y", ⟨6, 7⟩⟩, ⟨"x", ⟨9, 10⟩⟩]

/-- Its right side. -/
def Expr.digits : List Expr :=
  [.literal "1" ⟨14, 15⟩, .literal "2" ⟨17, 18⟩, .literal "3" ⟨20, 21⟩, .literal "4" ⟨23, 24⟩]

/-- `y` can be seen from outside, and `z` alone is declared at the level: the first `x` is new, the
second is not. -/
theorem define_outcome_mixed :
    Ident.mixed.map Expr.name ≠ [] ∧ (Ident.mixed.map Expr.name).length = Expr.digits.length ∧
      ∃ fs q, ((Stmt.assign (Ident.mixed.map Expr.name) .define Expr.digits ⟨0, 24⟩).lowerSimple
          ⟨""⟩).runFrom ⟨⟨.chained, ["z"], [["y"]]⟩, []⟩ = (.ok fs, q) ∧
        fs.map Fragment.text = ["auto x = 1", "(void)(2)", "y = 3", "x = 4"] := by
  have hn : Ident.mixed.map Expr.name ≠ [] := List.cons_ne_nil _ _
  have hl : (Ident.mixed.map Expr.name).length = Expr.digits.length := rfl
  have hnew : ∃ x ∈ Ident.mixed, x.isBlank = false ∧
      (Scope.mk .chained ["z"] [["y"]]).isDeclaredHere x.name = false :=
    ⟨⟨"x", ⟨0, 1⟩⟩, List.mem_cons_self, rfl, rfl⟩
  have hvalues : Expr.Values ⟨""⟩ Expr.digits
      [.literal "1", .literal "2", .literal "3", .literal "4"] :=
    .cons rfl (.cons rfl (.cons rfl (.cons rfl .nil)))
  obtain ⟨-, hnames⟩ := define_outcome ⟨""⟩ hn hl ⟨0, 24⟩ ⟨⟨.chained, ["z"], [["y"]]⟩, []⟩
  obtain ⟨-, -, hok⟩ := (hnames _ rfl).2 hnew
  obtain ⟨fs, q, hrun, hlen, hat⟩ := hok _ hvalues
  refine ⟨hn, hl, fs, q, hrun, ?_⟩
  match fs, hlen with
  | [f₁, f₂, f₃, f₄], _ =>
    obtain rfl := Option.some.inj (hat 0 _ _ rfl rfl)
    obtain rfl := Option.some.inj (hat 1 _ _ rfl rfl)
    obtain rfl := Option.some.inj (hat 2 _ _ rfl rfl)
    obtain rfl := Option.some.inj (hat 3 _ _ rfl rfl)
    decide

end Runs

end Recast
