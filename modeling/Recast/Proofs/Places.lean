import Recast.Proofs.Parallel
import Recast.Proofs.SoundFiles

/-!
# Places do not matter

What a function is lowered to depends on its tree and the policy alone: not on the places of its
nodes, and of the text around it on nothing.
-/

namespace Recast

variable {src : Source}

/-! ## Sound spans cut the text -/

theorem Ident.Sound.isSome_slice? {x : Ident} (h : x.Sound src) :
    (src.slice? x.span).isSome = true :=
  Option.isSome_of_eq_some h.slice

theorem Source.slices_map {α : Type} {f : α → Span} {xs : List α}
    (h : ∀ x ∈ xs, (src.slice? (f x)).isSome = true) : src.Slices (xs.map f) := by
  intro span hs
  obtain ⟨x, hx, rfl⟩ := List.mem_map.1 hs
  exact h x hx

theorem Source.slices_flatMap {α : Type} {f : α → List Span} {xs : List α}
    (h : ∀ x ∈ xs, src.Slices (f x)) : src.Slices (xs.flatMap f) := by
  intro span hs
  obtain ⟨x, hx, hs⟩ := List.mem_flatMap.1 hs
  exact h x hx span hs

theorem Source.slices_elim {α : Type} {f : α → List Span} {a : Option α}
    (h : ∀ x ∈ a, src.Slices (f x)) : src.Slices (a.elim [] f) := by
  cases a with
  | none => exact List.forall_mem_nil _
  | some x => exact h x rfl

mutual

theorem Expr.Sound.slices : ∀ {e : Expr}, e.Sound src → src.Slices e.spans
  | .literal .., .literal hs _ => by simp [spans, Source.Slices, hs]
  | .unsupported _, .unsupported hs => by
    simpa [spans, Source.Slices] using Source.slice?_isSome_iff.2 hs.toCuts
  | .name x, .name hx => by simpa [spans, Source.Slices] using hx.isSome_slice?
  | .binary op l r s, .binary hs hl hr => by
    rw [spans, Source.slices_cons, Source.slices_append]
    exact ⟨Source.slice?_isSome_iff.2 hs.cuts, hl.slices, hr.slices⟩
  | .unary op e s, .unary hs he | .paren e s, .paren hs he => by
    rw [spans, Source.slices_cons]
    exact ⟨Source.slice?_isSome_iff.2 hs.cuts, he.slices⟩
  | .call callee args s, .call hs hf ha => by
    rw [spans, Source.slices_cons, Source.slices_append]
    exact ⟨Source.slice?_isSome_iff.2 hs.cuts, hf.slices, listSlices ha⟩
  | .selector e x s, .selector hs he hx => by
    rw [spans, Source.slices_cons, Source.slices_cons]
    exact ⟨Source.slice?_isSome_iff.2 hs.cuts, hx.isSome_slice?, he.slices⟩

theorem Expr.Sound.listSlices : ∀ {es : List Expr}, (∀ e ∈ es, e.Sound src) →
    src.Slices (Expr.listSpans es)
  | [], _ => List.forall_mem_nil _
  | e :: es, h => by
    rw [Expr.listSpans, Source.slices_append]
    obtain ⟨he, hes⟩ := List.forall_mem_cons.1 h
    exact ⟨he.slices, listSlices hes⟩

end

theorem TypeExpr.Sound.isSome_slice? {type : TypeExpr} (h : type.Sound src) :
    (src.slice? type.span).isSome = true :=
  Source.slice?_isSome_iff.2 h.cuts

theorem ValueSpec.Sound.slices {spec : ValueSpec} (h : spec.Sound src (Expr.Sound src)) :
    src.Slices spec.spans := by
  rw [spans, Source.slices_cons, Source.slices_append, Source.slices_append]
  refine ⟨Source.slice?_isSome_iff.2 h.frames.cuts, ⟨?_, ?_⟩, Expr.Sound.listSlices h.values⟩
  · exact Source.slices_map fun x hx => (h.names x hx).isSome_slice?
  · exact Source.slices_map fun t ht => (h.type t (Option.mem_toList.1 ht)).isSome_slice?

mutual

theorem Stmt.Sound.slices : ∀ {s : Stmt}, s.Sound src (Expr.Sound src) → src.Slices s.spans
  | .ret es s, h => by
    cases h with
    | ret hs hr =>
      rw [Stmt.spans, Source.slices_cons]
      exact ⟨Source.slice?_isSome_iff.2 hs.cuts, Expr.Sound.listSlices hr⟩
  | .assign lhs op rhs s, h => by
    cases h with
    | assign hs hl hr =>
      rw [Stmt.spans, Source.slices_cons, Source.slices_append]
      exact ⟨Source.slice?_isSome_iff.2 hs.cuts, Expr.Sound.listSlices hl,
        Expr.Sound.listSlices hr⟩
  | .decl kind specs s, h => by
    cases h with
    | decl hs hp =>
      rw [Stmt.spans, Source.slices_cons]
      exact ⟨Source.slice?_isSome_iff.2 hs.cuts,
        Source.slices_flatMap fun spec hspec => (hp spec hspec).slices⟩
  | .step e op s, h => by
    cases h with
    | step hs he =>
      rw [Stmt.spans, Source.slices_cons]
      exact ⟨Source.slice?_isSome_iff.2 hs.cuts, he.slices⟩
  | .cond init test body other s, h => by
    cases h with
    | cond hs hi ht hb ho =>
      rw [Stmt.spans, Source.slices_cons, Source.slices_append, Source.slices_append,
        Source.slices_append]
      exact ⟨Source.slice?_isSome_iff.2 hs.cuts, ⟨⟨Stmt.Sound.optionSlices hi, ht.slices⟩,
        Block.Sound.slices hb⟩, Stmt.Sound.optionSlices ho⟩
  | .loop init test post body s, h => by
    cases h with
    | loop hs hi ht hp hb =>
      rw [Stmt.spans, Source.slices_cons, Source.slices_append, Source.slices_append,
        Source.slices_append]
      exact ⟨Source.slice?_isSome_iff.2 hs.cuts, ⟨⟨Stmt.Sound.optionSlices hi,
        Source.slices_elim fun e he => (ht e he).slices⟩, Stmt.Sound.optionSlices hp⟩,
        Block.Sound.slices hb⟩
  | .block body, h => by
    cases h with
    | block hb => exact Block.Sound.slices hb
  | .unsupported s, h => by
    cases h with
    | unsupported hs =>
      rw [Stmt.spans, Source.slices_cons]
      exact ⟨Source.slice?_isSome_iff.2 hs.toCuts, List.forall_mem_nil _⟩

theorem Stmt.Sound.optionSlices : ∀ {s : Option Stmt},
    (∀ t ∈ s, t.Sound src (Expr.Sound src)) → src.Slices (Stmt.optionSpans s)
  | none, _ => List.forall_mem_nil _
  | some s, h => Stmt.Sound.slices (h s rfl)

theorem Stmt.Sound.listSlices : ∀ {ss : List Stmt},
    (∀ s ∈ ss, s.Sound src (Expr.Sound src)) → src.Slices (Stmt.listSpans ss)
  | [], _ => List.forall_mem_nil _
  | s :: ss, h => by
    obtain ⟨hs, hss⟩ := List.forall_mem_cons.1 h
    rw [Stmt.listSpans, Source.slices_append]
    exact ⟨Stmt.Sound.slices hs, Stmt.Sound.listSlices hss⟩

theorem Block.Sound.slices : ∀ {b : Block}, b.Sound src (Expr.Sound src) → src.Slices b.spans
  | .mk ss s, h => by
    cases h with
    | mk hs hb =>
      rw [Block.spans, Source.slices_cons]
      exact ⟨Source.slice?_isSome_iff.2 hs.cuts, Stmt.Sound.listSlices hb⟩

end

theorem Field.Sound.slices {field : Field} (h : field.Sound src) : src.Slices field.spans := by
  rw [spans, Source.slices_cons, Source.slices_cons]
  exact ⟨Source.slice?_isSome_iff.2 h.frames.cuts, h.type.isSome_slice?,
    Source.slices_map fun x hx => (h.names x hx).isSome_slice?⟩

theorem FieldList.Sound.slices {fs : FieldList} (h : fs.Sound src) : src.Slices fs.spans := by
  rw [spans, Source.slices_cons]
  exact ⟨Source.slice?_isSome_iff.2 h.frames.cuts,
    Source.slices_flatMap fun field hf => (h.fields field hf).slices⟩

theorem Func.Sound.slices {f : Func} (h : f.Sound src (Expr.Sound src)) :
    src.Slices f.spans := by
  rw [spans, Source.slices_cons, Source.slices_cons, Source.slices_append, Source.slices_append]
  exact ⟨Source.slice?_isSome_iff.2 h.frames.cuts, h.name.isSome_slice?, ⟨h.params.slices,
    Source.slices_elim fun fs hfs => (h.results fs hfs).slices⟩,
    Source.slices_elim fun b hb => (h.body b hb).slices⟩

/-! ## The same tree elsewhere -/

/-- Spans in the same places of two functions correspond. Each cuts the text of its function. -/
def Comparison.places (f g : Func) (src src' : Source) (hf : src.Slices f.spans)
    (hg : src'.Slices g.spans) : Comparison where
  left := src
  right := src'
  node s t := (s, t) ∈ f.spans.zip g.spans
  call s t := (s, t) ∈ f.calls.zip g.calls
  loss d e := d.loss = e.loss ∧ (d.span, e.span) ∈ f.calls.zip g.calls
  records hst _ _ := ⟨rfl, hst⟩
  sliced := by
    intro s t h
    obtain ⟨hs, ht⟩ := List.of_mem_zip h
    rw [hf s hs, hg t ht]

/-- The outcomes of lowering two functions that are equal up to spans: the same C++ form, with the
same losses in calls that correspond, or the same cause over nodes that correspond, apart from the
source text that it quotes. -/
inductive Func.SameOutcome (f g : Func) :
    Except Fault Func.Lowered → Except Fault Func.Lowered → Prop
  | lowered {l m : Func.Lowered} (hfunc : l.func = m.func) (htext : l.text = m.text)
      (hlost : List.Forall₂ (fun d e =>
        d.loss = e.loss ∧ (d.span, e.span) ∈ f.calls.zip g.calls) l.lost m.lost) :
      SameOutcome f g (.ok l) (.ok m)
  | rejected {r s : Rejection} (hcause : r.cause.unquoted = s.cause.unquoted)
      (hspan : (r.span, s.span) ∈ f.spans.zip g.spans) :
      SameOutcome f g (.error (.rejected r)) (.error (.rejected s))

section Elsewhere

variable {f g : Func} {src' : Source}

/-- Where all spans cut the text, faults that match are rejections. -/
theorem Func.SameOutcome.of_faults {hf : src.Slices f.spans} {hg : src'.Slices g.spans}
    {d e : Fault} (h : (Comparison.places f g src src' hf hg).Faults d e) :
    SameOutcome f g (.error d) (.error e) := by
  cases h with
  | @reject cause s t hs hq =>
    obtain ⟨hsf, htg⟩ := List.of_mem_zip hs
    obtain ⟨a, ha⟩ := Option.isSome_iff_exists.1 (hf s hsf)
    obtain ⟨b, hb⟩ := Option.isSome_iff_exists.1 (hg t htg)
    change SameOutcome f g (.error (src.reject cause s)) (.error (src'.reject cause t))
    rw [Source.reject, Source.reject, ha, hb]
    exact .rejected (hq a b) hs
  | named hs => exact .rejected rfl hs
  | @unsliced s t hs hl =>
    have hsome := hf s (List.of_mem_zip hs).1
    change src.slice? s = none at hl
    rw [hl] at hsome
    cases hsome

theorem Func.sameOutcome_of_slices (h : f.unplaced = g.unplaced) (hf : src.Slices f.spans)
    (hg : src'.Slices g.spans) (policy : ScopePolicy) :
    SameOutcome f g (f.lower src policy) (g.lower src' policy) := by
  let c := Comparison.places f g src src' hf hg
  have htwin : f.Twin c g := twin_of_unplaced h (fun _ _ hst => hst) fun _ _ hst => hst
  have hstart : c.Reached ⟨.root policy, []⟩ ⟨.root policy, []⟩ := ⟨.refl _, .nil⟩
  obtain ⟨hresult, hreached⟩ := lowerParts_parallel htwin hstart
  change c.Results Eq ((f.lowerParts src).runFrom _).1 ((g.lowerParts src').runFrom _).1
    at hresult
  change c.Reached ((f.lowerParts src).runFrom _).2 ((g.lowerParts src').runFrom _).2
    at hreached
  unfold Func.lower
  rcases hl : (f.lowerParts src).runFrom ⟨.root policy, []⟩ with ⟨rl, pl⟩
  rcases hm : (g.lowerParts src').runFrom ⟨.root policy, []⟩ with ⟨rm, pm⟩
  rw [hl, hm] at hresult hreached
  cases hresult with
  | ok e =>
    subst e
    exact .lowered rfl rfl hreached.lost
  | error he => exact .of_faults he

/-- **Places do not matter.** Two functions that are equal up to spans have the same outcome, each
with its own text, wherever all spans of the functions cut these texts; so they do if the functions
are read from the texts, whatever else stands there. -/
theorem lower_of_unplaced_eq (h : f.unplaced = g.unplaced) (policy : ScopePolicy) :
    (src.Slices f.spans → src'.Slices g.spans →
      f.SameOutcome g (f.lower src policy) (g.lower src' policy)) ∧
    ∀ file file', File.read src = .ok file → f ∈ file.funcs → File.read src' = .ok file' →
      g ∈ file'.funcs → f.SameOutcome g (f.lower src policy) (g.lower src' policy) := by
  refine ⟨fun hf hg => f.sameOutcome_of_slices h hf hg policy, ?_⟩
  intro file file' hread hf hread' hg
  have hsf := ((File.sound_of_read hread).funcs f hf).slices
  have hsg := ((File.sound_of_read hread').funcs g hg).slices
  exact f.sameOutcome_of_slices h hsf hsg policy

end Elsewhere

/-- A text of one function. -/
def called : Source := ⟨"func f(a int) \x7b b := g(a) \x7d\n"⟩

/-- The same function below another one, with other white space. -/
def calledBelow : Source := ⟨"func k()\n// moved\nfunc f(a int) \x7b\n\tb := g( a )\n\x7d\n"⟩

theorem lower_of_unplaced_eq_called :
    ∃ (file file' : File) (f g : Func) (l m : Func.Lowered),
      File.read called = .ok file ∧ f ∈ file.funcs ∧ File.read calledBelow = .ok file' ∧
      g ∈ file'.funcs ∧ f.unplaced = g.unplaced ∧ f.lower called .chained = .ok l ∧
      g.lower calledBelow .chained = .ok m ∧ l.text = m.text ∧
      l.lost.map Degradation.span = [⟨21, 25⟩] ∧
      m.lost.map Degradation.span = [⟨40, 46⟩] := by
  let f : Func := (((File.read called).toOption.map File.funcs).getD [])[0]?.getD default
  let g : Func := (((File.read calledBelow).toOption.map File.funcs).getD [])[1]?.getD default
  have hfuncs : (File.read called).toOption.map (fun p => p.funcs.contains f) = some true := by
    decide +kernel
  have hfuncs' :
      (File.read calledBelow).toOption.map (fun p => p.funcs.contains g) = some true := by
    decide +kernel
  have hlost : (f.lower called .chained).toOption.map (fun l => l.lost.map Degradation.span)
      = some [⟨21, 25⟩] := by decide +kernel
  have hlost' : (g.lower calledBelow .chained).toOption.map
      (fun m => m.lost.map Degradation.span) = some [⟨40, 46⟩] := by decide +kernel
  have hequal : f.unplaced = g.unplaced := by decide +kernel
  obtain ⟨file, hread, hf⟩ := Option.map_eq_some_iff.1 hfuncs
  obtain ⟨file', hread', hg⟩ := Option.map_eq_some_iff.1 hfuncs'
  obtain ⟨l, hl, hspans⟩ := Option.map_eq_some_iff.1 hlost
  obtain ⟨m, hm, hspans'⟩ := Option.map_eq_some_iff.1 hlost'
  replace hread := eq_ok_of_toOption hread
  replace hread' := eq_ok_of_toOption hread'
  replace hl := eq_ok_of_toOption hl
  replace hm := eq_ok_of_toOption hm
  replace hf : f ∈ file.funcs := by simpa using hf
  replace hg : g ∈ file'.funcs := by simpa using hg
  have houtcome := (lower_of_unplaced_eq hequal .chained).2 file file' hread hf hread' hg
  rw [hl, hm] at houtcome
  cases houtcome with
  | lowered _ htext _ =>
    exact ⟨file, file', f, g, l, m, hread, hf, hread', hg, hequal, hl, hm, htext, hspans,
      hspans'⟩

end Recast
