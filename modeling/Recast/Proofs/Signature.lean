import Recast.Proofs.Acceptance
import Recast.Proofs.Declared
import Recast.Proofs.Orders

/-!
# Signatures

A signature is translated by checks made one after the other (`Func.checks`): the number of results
and the type of the one there is, then, field by field, the type, that there is a name, and that
each name is new. Each check is said by itself (`SignatureCheck.failure?`), without lowering. The
first that fails is the error of the function; if none does, the text of the signature is made of
the types and names as they stand in the source, and the body is lowered below the names that are
not blank (`signature_outcome`).

A level takes any number of blank names and records none of them, so of the names of a parameter
list only these can be written twice (`Func.params_nodup_iff`).
-/

namespace Recast

/-! ## Checks -/

/-- A check of a signature. -/
inductive SignatureCheck where
  /-- A result list stands for one value at most. -/
  | single (results : FieldList)
  /-- A type has a C++ counterpart. -/
  | mapped (type : TypeExpr)
  /-- A parameter has a name. -/
  | named (field : Field)
  /-- A name is not that of a parameter before it. -/
  | fresh (before : List Ident) (x : Ident)

/-- The C++ type of a type expression, if it has one. -/
def TypeExpr.mapped? : TypeExpr → Option Primitive
  | .named x => Primitive.ofName? x.name
  | .unsupported _ => none

namespace SignatureCheck

/-- The cause of the error of a check, if it fails. -/
def failure? : SignatureCheck → Option (String → Cause)
  | .single results => if results.arity ≤ 1 then none else some .multipleReturnTypes
  | .mapped (.named x) =>
    if (Primitive.ofName? x.name).isSome then none else some fun _ => .unknownPrimitiveType x.name
  | .mapped (.unsupported _) => some .unsupportedTypeShape
  | .named field => if field.names = [] then some .missingParameterName else none
  | .fresh before x =>
    if x.name ∈ Ident.visible before then some fun _ => .duplicateDeclaration x.name else none

/-- What a check is about. -/
def span : SignatureCheck → Span
  | .single results => results.span
  | .mapped type => type.span
  | .named field => field.span
  | .fresh _ x => x.span

/-- The fault of a check that fails. -/
def fault? (src : Source) (check : SignatureCheck) : Option Fault :=
  check.failure?.map fun cause => src.reject cause check.span

/-- The fault of the first check that fails. -/
def firstFault? (src : Source) (checks : List SignatureCheck) : Option Fault :=
  checks.findSome? (fault? src)

variable {src : Source}

theorem firstFault?_cons (check : SignatureCheck) (checks : List SignatureCheck) :
    firstFault? src (check :: checks) = (check.fault? src).or (firstFault? src checks) := by
  rw [firstFault?, List.findSome?_cons]
  cases check.fault? src <;> rfl

theorem firstFault?_append (checks rest : List SignatureCheck) :
    firstFault? src (checks ++ rest) = (firstFault? src checks).or (firstFault? src rest) :=
  List.findSome?_append

end SignatureCheck

/-- The checks of a result list: its length, then its type. -/
def FieldList.resultChecks (results : FieldList) : List SignatureCheck :=
  .single results :: results.fields.map fun field => .mapped field.type

/-- The checks of the names of a field that stands after given names. -/
def nameChecks : (before : List Ident) → List Ident → List SignatureCheck
  | _, [] => []
  | before, x :: names => .fresh before x :: nameChecks (before ++ [x]) names

/-- The checks of the fields of a parameter list, from left to right. -/
def paramChecks : (before : List Ident) → List Field → List SignatureCheck
  | _, [] => []
  | before, field :: fields =>
    .mapped field.type :: .named field :: (nameChecks before field.names
      ++ paramChecks (before ++ field.names) fields)

namespace Func

/-- The names of the parameters, in order. -/
def paramNames (f : Func) : List Ident := f.params.fields.flatMap Field.names

/-- The checks of a signature, in the order in which they are made. -/
def checks (f : Func) : List SignatureCheck :=
  f.results.elim [] FieldList.resultChecks ++ paramChecks [] f.params.fields

end Func

/-! ### What the checks are about -/

theorem span_mem_of_mem_nameChecks {before names : List Ident} {check : SignatureCheck}
    (h : check ∈ nameChecks before names) : check.span ∈ names.map Ident.span := by
  induction names generalizing before with
  | nil => cases h
  | cons x names ih =>
    rcases List.mem_cons.1 h with rfl | h
    · exact List.mem_cons_self
    · exact List.mem_cons_of_mem _ (ih h)

theorem span_mem_of_mem_paramChecks {before : List Ident} {fields : List Field}
    {check : SignatureCheck} (h : check ∈ paramChecks before fields) :
    check.span ∈ fields.flatMap Field.spans := by
  induction fields generalizing before with
  | nil => cases h
  | cons field fields ih =>
    rw [List.flatMap_cons, List.mem_append, Field.spans]
    simp only [paramChecks, List.mem_cons, List.mem_append] at h
    rcases h with rfl | rfl | h | h
    · exact .inl (List.mem_cons_of_mem _ List.mem_cons_self)
    · exact .inl List.mem_cons_self
    · exact .inl (List.mem_cons_of_mem _ (List.mem_cons_of_mem _ (span_mem_of_mem_nameChecks h)))
    · exact .inr (ih h)

theorem span_mem_of_mem_resultChecks {results : FieldList} {check : SignatureCheck}
    (h : check ∈ results.resultChecks) : check.span ∈ results.spans := by
  rcases List.mem_cons.1 h with rfl | h
  · exact List.mem_cons_self
  · obtain ⟨field, hf, rfl⟩ := List.mem_map.1 h
    refine List.mem_cons_of_mem _ (List.mem_flatMap.2 ⟨field, hf, ?_⟩)
    exact List.mem_cons_of_mem _ List.mem_cons_self

theorem named_mem_paramChecks {before : List Ident} {fields : List Field} {field : Field}
    (h : field ∈ fields) : .named field ∈ paramChecks before fields := by
  induction fields generalizing before with
  | nil => cases h
  | cons g fields ih =>
    simp only [paramChecks, List.mem_cons, List.mem_append]
    rcases List.mem_cons.1 h with rfl | h
    · exact .inr (.inl rfl)
    · exact .inr (.inr (.inr (ih h)))

/-- A check is about a part of the function. -/
theorem Func.span_mem_of_mem_checks {f : Func} {check : SignatureCheck} (h : check ∈ f.checks) :
    check.span ∈ f.spans := by
  have hspan : check.span ∈ f.params.spans ++ f.results.elim [] FieldList.spans := by
    rcases List.mem_append.1 h with h | h
    · refine List.mem_append_right _ ?_
      cases hr : f.results with
      | none =>
        rw [hr] at h
        cases h
      | some results =>
        rw [hr] at h
        exact span_mem_of_mem_resultChecks h
    · exact List.mem_append_left _ (List.mem_cons_of_mem _ (span_mem_of_mem_paramChecks h))
  exact List.mem_cons_of_mem _ (List.mem_cons_of_mem _ (List.mem_append_left _ hspan))

/-! ## Texts -/

/-- The C++ text of a type. A type without a counterpart has none. -/
def TypeExpr.text (type : TypeExpr) : String := type.mapped?.elim "" Primitive.text

/-- The parameters of a field: its type and one of its names each. -/
def Field.paramTexts (field : Field) : List String :=
  field.names.map fun x => field.type.text ++ " " ++ x.name

/-- The text of the one result, `void` if there is none. -/
def FieldList.resultText (results : FieldList) : String :=
  results.fields.head?.elim "void" fun field => field.type.text

namespace Func

def paramTexts (f : Func) : List String := f.params.fields.flatMap Field.paramTexts

/-- The text of a function before its body. -/
def signatureText (f : Func) : String :=
  f.results.elim "void" FieldList.resultText ++ " " ++ f.name.name
    ++ "(" ++ ", ".intercalate f.paramTexts ++ ") "

end Func

/-- One C++ parameter. -/
def Target.paramText (param : Primitive × String) : String := param.1.text ++ " " ++ param.2

/-! ## The level of the parameters -/

/-- The scope of a level at which some names were declared, with no level around it. -/
def Scope.ofNames (policy : ScopePolicy) (names : List Ident) : Scope :=
  ⟨policy, (Ident.visible names).reverse, []⟩

theorem Scope.declare?_ofNames (policy : ScopePolicy) (names : List Ident) (x : Ident) :
    (ofNames policy names).declare? x =
      if x.name ∈ Ident.visible names then none else some (ofNames policy (names ++ [x])) := by
  unfold declare?
  cases hb : x.isBlank with
  | true =>
    have hnot : x.name ∉ Ident.visible names := by
      intro h
      obtain ⟨y, hy, hname⟩ := List.mem_map.1 h
      have hyb := (List.mem_filter.1 hy).2
      simp_all [Ident.isBlank]
    rw [if_pos rfl, if_neg hnot, ofNames, ofNames, Ident.visible_append, Ident.visible_of_blank hb,
      List.append_nil]
  | false =>
    have hiff : (ofNames policy names).isDeclaredHere x.name = true ↔
        x.name ∈ Ident.visible names := by
      rw [isDeclaredHere_iff, ofNames, List.mem_reverse]
    by_cases h : x.name ∈ Ident.visible names
    · rw [if_neg Bool.false_ne_true, if_pos (hiff.2 h), if_pos h]
    · rw [if_neg Bool.false_ne_true, if_neg (mt hiff.1 h), if_neg h, ofNames, ofNames,
        Ident.visible_append, Ident.visible_of_not_blank hb, List.reverse_append]
      rfl

/-! ## The outcome of a part -/

namespace Lowering

/-- The outcome of a step, given the first fault that it comes to, if there is one, and what holds
of its result and of its progress otherwise. -/
inductive Outcome {α : Type} (P : α → Progress → Prop) :
    Option Fault → Except Fault α × Progress → Prop
  | failed {fault : Fault} {q : Progress} : Outcome P (some fault) (.error fault, q)
  | ended {a : α} {q : Progress} (h : P a q) : Outcome P none (.ok a, q)

variable {α β : Type} {P : α → Progress → Prop} {Q : β → Progress → Prop}
  {first rest : Option Fault} {p : Progress}

theorem Outcome.mono {P' : α → Progress → Prop} {run : Except Fault α × Progress}
    (h : Outcome P first run) (hP : ∀ a q, P a q → P' a q) : Outcome P' first run := by
  cases h with
  | failed => exact .failed
  | ended h => exact .ended (hP _ _ h)

/-- What comes after a step can only be the first to fail if the step does not. -/
theorem Outcome.bind {x : Lowering α} {f : α → Lowering β} (h : Outcome P first (x.runFrom p))
    (hf : ∀ a q, P a q → Outcome Q rest ((f a).runFrom q)) :
    Outcome Q (first.or rest) ((x >>= f).runFrom p) := by
  rw [bind_runFrom]
  generalize x.runFrom p = run at h
  cases h with
  | failed => exact .failed
  | ended h => exact hf _ _ h

theorem Outcome.map_lift {r : Except Fault α} {f : α → β}
    (h : Outcome P first ((lift r).runFrom p)) (hf : ∀ a, P a p → Q (f a) p) :
    Outcome Q (first.or none) ((lift (f <$> r)).runFrom p) := by
  rw [Option.or_none]
  cases r with
  | error e =>
    cases h
    exact .failed
  | ok a =>
    cases h with
    | ended h => exact .ended (hf a h)

/-- The fault of a step, if it failed. -/
def faultOf (run : Except Fault α × Progress) : Option Fault :=
  match run.1 with
  | .ok _ => none
  | .error fault => some fault

theorem outcome_self (run : Except Fault α × Progress) :
    Outcome (fun a q => run = (.ok a, q)) (faultOf run) run := by
  obtain ⟨r, q⟩ := run
  cases r with
  | error fault => exact .failed
  | ok a => exact .ended rfl

/-- What comes after the last part does not fail. -/
theorem Outcome.bind_pure {x : Lowering α} {f : α → β} (h : Outcome P first (x.runFrom p))
    (hf : ∀ a q, P a q → Q (f a) q) :
    Outcome Q first ((do let a ← x; return f a).runFrom p) := by
  have hb : Outcome Q (first.or none) ((do let a ← x; return f a).runFrom p) :=
    h.bind fun a q ha => .ended (hf a q ha)
  rwa [Option.or_none] at hb

end Lowering

open Lowering (Outcome)
open SignatureCheck (failure? fault? firstFault? firstFault?_cons firstFault?_append)

variable {src : Source} {policy : ScopePolicy} {lost : List Degradation}

theorem Source.reject_of_slices {span : Span} (hs : (src.slice? span).isSome = true)
    (cause : Cause) : src.reject (fun _ => cause) span = .rejected ⟨cause, span⟩ := by
  obtain ⟨t, ht⟩ := Option.isSome_iff_exists.1 hs
  rw [reject, ht]

theorem TypeExpr.lower_outcome {type : TypeExpr} (hs : (src.slice? type.span).isSome = true)
    (p : Progress) :
    Outcome (fun t q => type.mapped? = some t ∧ q = p)
      (fault? src (.mapped type)) ((Lowering.lift (type.lower src)).runFrom p) := by
  cases type with
  | unsupported span => exact .failed
  | named x =>
    rw [fault?, failure?, TypeExpr.lower, TypeExpr.mapped?]
    cases Primitive.ofName? x.name with
    | some t => exact .ended ⟨rfl, rfl⟩
    | none =>
      rw [if_neg (by simp), Option.map_some]
      change Outcome _ (some (src.reject (fun _ => .unknownPrimitiveType x.name) x.span)) _
      have hx : (src.slice? x.span).isSome = true := hs
      rw [src.reject_of_slices hx]
      exact .failed

/-- Declaring the name of one more parameter. -/
theorem Lowering.declare_outcome {x : Ident} (hs : (src.slice? x.span).isSome = true)
    (before : List Ident) :
    Outcome (fun _ q => q = ⟨.ofNames policy (before ++ [x]), lost⟩)
      (fault? src (.fresh before x))
      ((Lowering.declare x).runFrom ⟨.ofNames policy before, lost⟩) := by
  rw [Lowering.declare_runFrom, Scope.declare?_ofNames, fault?, failure?]
  by_cases h : x.name ∈ Ident.visible before
  · simp only [if_pos h, Option.map_some, SignatureCheck.span, Source.reject_of_slices hs]
    exact .failed
  · simp only [if_neg h, Option.map_none]
    exact .ended rfl

theorem lowerParamNames_outcome {type : Primitive} {names : List Ident}
    (hs : src.Slices (names.map Ident.span)) (before : List Ident) :
    Outcome
      (fun params q => params = names.map (fun x => (type, x.name)) ∧
        q = ⟨.ofNames policy (before ++ names), lost⟩)
      (firstFault? src (nameChecks before names))
      ((lowerParamNames type names).runFrom ⟨.ofNames policy before, lost⟩) := by
  induction names generalizing before with
  | nil => exact .ended ⟨rfl, by rw [List.append_nil]⟩
  | cons x names ih =>
    rw [List.map_cons, Source.slices_cons] at hs
    rw [nameChecks, firstFault?_cons]
    refine (Lowering.declare_outcome hs.1 before).bind fun _ q hq => ?_
    subst hq
    refine (ih hs.2 (before ++ [x])).bind_pure fun params q hq => ?_
    obtain ⟨rfl, rfl⟩ := hq
    exact ⟨rfl, by rw [List.append_assoc]; rfl⟩

theorem Field.lowerParam_outcome {field : Field} (hs : src.Slices field.spans)
    (before : List Ident) :
    Outcome
      (fun params q => params.map Target.paramText = field.paramTexts ∧
        q = ⟨.ofNames policy (before ++ field.names), lost⟩)
      (firstFault? src (.mapped field.type :: .named field :: nameChecks before field.names))
      ((field.lowerParam src).runFrom ⟨.ofNames policy before, lost⟩) := by
  simp only [Field.spans, Source.slices_cons] at hs
  rw [firstFault?_cons]
  refine (TypeExpr.lower_outcome hs.2.1 _).bind fun type q ht => ?_
  obtain ⟨ht, rfl⟩ := ht
  rw [firstFault?_cons, fault?, failure?]
  by_cases hn : field.names = []
  · rw [if_pos hn, if_pos (by simpa using hn)]
    exact .failed
  · rw [if_neg hn, if_neg (by simpa using hn)]
    refine (lowerParamNames_outcome hs.2.2 before).mono fun params q hq => ?_
    obtain ⟨rfl, rfl⟩ := hq
    refine ⟨?_, rfl⟩
    simp [Field.paramTexts, TypeExpr.text, Target.paramText, ht]

theorem lowerParams_outcome {fields : List Field} (hs : src.Slices (fields.flatMap Field.spans))
    (before : List Ident) :
    Outcome
      (fun params q => params.map Target.paramText = fields.flatMap Field.paramTexts ∧
        q = ⟨.ofNames policy (before ++ fields.flatMap Field.names), lost⟩)
      (firstFault? src (paramChecks before fields))
      ((lowerParams src fields).runFrom ⟨.ofNames policy before, lost⟩) := by
  induction fields generalizing before with
  | nil => exact .ended ⟨rfl, by simp⟩
  | cons field fields ih =>
    rw [List.flatMap_cons, Source.slices_append] at hs
    rw [paramChecks, ← List.cons_append, ← List.cons_append, firstFault?_append]
    refine (field.lowerParam_outcome hs.1 before).bind fun ps q hq => ?_
    obtain ⟨hps, rfl⟩ := hq
    refine (ih hs.2 _).bind_pure fun qs q hq => ?_
    obtain ⟨hqs, rfl⟩ := hq
    refine ⟨?_, ?_⟩
    · rw [List.map_append, hps, hqs, List.flatMap_cons]
    · rw [List.flatMap_cons, List.append_assoc]

/-- A result list that passes its checks stands for one type, or for none. -/
theorem FieldList.lowerResult_outcome {results : FieldList} (hs : src.Slices results.spans)
    (p : Progress) :
    Outcome (fun type q => type.elim "void" Primitive.text = results.resultText ∧ q = p)
      (firstFault? src results.resultChecks)
      ((Lowering.lift (results.lowerResult src)).runFrom p) := by
  rw [FieldList.resultChecks, firstFault?_cons, fault?, failure?, FieldList.lowerResult]
  by_cases ha : results.arity ≤ 1
  · rw [if_pos ha, if_neg (by omega), FieldList.resultText]
    rcases FieldList.fields_of_arity ha with hf | ⟨field, hf⟩
    · rw [hf]
      exact .ended ⟨rfl, rfl⟩
    · simp only [FieldList.spans, hf, List.flatMap_singleton, Source.slices_cons, Field.spans] at hs
      rw [hf, List.map_singleton, firstFault?_cons]
      refine (TypeExpr.lower_outcome hs.2.2.1 p).map_lift fun t ht => ⟨?_, rfl⟩
      rw [List.head?_cons, Option.elim_some, Option.elim_some, TypeExpr.text, ht.1,
        Option.elim_some]
  · rw [if_neg ha, if_pos (by omega)]
    exact .failed

theorem optionResult_outcome {results : Option FieldList}
    (hs : src.Slices (results.elim [] FieldList.spans)) (p : Progress) :
    Outcome (fun type q =>
        type.elim "void" Primitive.text = results.elim "void" FieldList.resultText ∧ q = p)
      (firstFault? src (results.elim [] FieldList.resultChecks))
      ((Lowering.lift (results.elim (.ok none) (FieldList.lowerResult src))).runFrom p) := by
  cases results with
  | none => exact .ended ⟨rfl, rfl⟩
  | some results => exact FieldList.lowerResult_outcome hs p

/-! ## The whole function -/

namespace Func

variable {f : Func}

/-- The body is lowered after the checks, at the level of the parameters. -/
theorem lowerParts_outcome (hs : src.Slices f.spans) :
    let run := (f.body.elim (pure []) (Block.lower src)).runFrom ⟨.ofNames policy f.paramNames, []⟩
    Outcome
      (fun t q => run = (.ok t.body, q) ∧
        t.text = f.signatureText ++ Target.braced (Target.Stmt.listText t.body) ++ "\n")
      ((firstFault? src f.checks).or (Lowering.faultOf run))
      ((f.lowerParts src).runFrom ⟨.root policy, []⟩) := by
  intro run
  rw [spans, Source.slices_cons, Source.slices_cons, Source.slices_append, Source.slices_append,
    FieldList.spans, Source.slices_cons] at hs
  obtain ⟨-, -, ⟨⟨-, hparams⟩, hresults⟩, -⟩ := hs
  rw [checks, firstFault?_append, Option.or_assoc]
  refine (optionResult_outcome hresults _).bind fun result q hq => ?_
  obtain ⟨hresult, rfl⟩ := hq
  refine (lowerParams_outcome hparams []).bind fun params q hq => ?_
  obtain ⟨hps, rfl⟩ := hq
  refine (Lowering.outcome_self run).bind_pure fun body q hbody => ⟨hbody, ?_⟩
  rw [Target.Func.text, signatureText, paramTexts, ← hresult, ← hps]
  rfl

/-- Lowering a function by itself has the outcome of its run. -/
theorem lower_of_outcome {P : Target.Func → Progress → Prop} {first : Option Fault}
    (h : Outcome P first ((f.lowerParts src).runFrom ⟨.root policy, []⟩)) :
    (∀ fault, first = some fault → f.lower src policy = .error fault) ∧
    (first = none → ∃ t q, P t q ∧ f.lower src policy = .ok ⟨t, q.lost⟩) := by
  unfold lower
  generalize (f.lowerParts src).runFrom ⟨.root policy, []⟩ = run at h
  cases h with
  | failed => simp
  | ended h => exact ⟨by simp, fun _ => ⟨_, _, h, rfl⟩⟩

/-- One parameter is written for each value that the parameter list stands for, if no check fails,
since then every field has a name. -/
theorem paramTexts_length (h : ∀ c ∈ f.checks, c.failure? = none) :
    f.paramTexts.length = f.params.arity := by
  have hnames : ∀ field ∈ f.params.fields, field.names ≠ [] := by
    intro field hf hn
    have hcheck := h (.named field) (List.mem_append_right _ (named_mem_paramChecks hf))
    rw [failure?, if_pos hn] at hcheck
    cases hcheck
  unfold paramTexts FieldList.arity
  generalize f.params.fields = fields at hnames
  induction fields with
  | nil => rfl
  | cons field fields ih =>
    rw [List.forall_mem_cons] at hnames
    have hpos := List.length_pos_of_ne_nil hnames.1
    rw [List.flatMap_cons, List.length_append, ih hnames.2, List.foldr_cons, Field.paramTexts,
      List.length_map, Field.arity, Nat.max_eq_left hpos]

end Func

/-- A result list that stands for no value is empty, and one that stands for a single value has a
single field. -/
theorem FieldList.fields_length_of_arity {results : FieldList} (h : results.arity ≤ 1) :
    results.fields.length = results.arity := by
  rcases FieldList.fields_of_arity h with hf | ⟨field, hf⟩
  · simp [arity, hf]
  · have hle : field.arity ≤ 1 := by simpa [arity, hf] using h
    have hge : 1 ≤ field.arity := Nat.le_max_right _ _
    simp only [arity, hf, List.foldr_cons, List.foldr_nil, List.length_singleton]
    omega

/-- **The signature of a function.** Under either policy, a function all of whose spans are ranges
of the source fails with the error of the first of its checks that fails, quoting the text there.
The one type of a result list is only asked for where there is one. If no check fails, the fault of
the body is that of the function, and if there is none the text is made of the signature, with one
parameter for each value of the parameter list, and of the body, lowered below a level that holds
just the names that are not blank. -/
theorem signature_outcome {src : Source} {f : Func} (hs : src.Slices f.spans)
    (policy : ScopePolicy) :
    (∀ results ∈ f.results, results.arity ≤ 1 → results.fields.length = results.arity) ∧
    (∀ before check after cause, f.checks = before ++ check :: after →
      (∀ c ∈ before, c.failure? = none) → check.failure? = some cause →
      ∃ quote, src.slice? check.span = some quote ∧
        f.lower src policy = .error (.rejected ⟨cause quote, check.span⟩)) ∧
    ((∀ c ∈ f.checks, c.failure? = none) →
      f.paramTexts.length = f.params.arity ∧
      (f.body = none → ∃ l, f.lower src policy = .ok l ∧ l.lost = [] ∧
        l.text = f.signatureText ++ Target.braced "" ++ "\n") ∧
      ∀ body ∈ f.body,
        let run := (body.lower src).runFrom ⟨.ofNames policy f.paramNames, []⟩
        (∀ fault q, run = (.error fault, q) → f.lower src policy = .error fault) ∧
        ∀ ss q, run = (.ok ss, q) → ∃ l, f.lower src policy = .ok l ∧ l.lost = q.lost ∧
          l.text = f.signatureText ++ Target.braced (Target.Stmt.listText ss) ++ "\n") := by
  obtain ⟨hfails, hends⟩ := Func.lower_of_outcome (@Func.lowerParts_outcome src policy f hs)
  refine ⟨fun results _ => FieldList.fields_length_of_arity, ?_, ?_⟩
  · intro before check after cause heq hbefore hcheck
    have hmem : check ∈ f.checks := heq ▸ List.mem_append_right _ List.mem_cons_self
    obtain ⟨quote, hquote⟩ :=
      Option.isSome_iff_exists.1 (hs check.span (Func.span_mem_of_mem_checks hmem))
    have hfirst : firstFault? src f.checks = some (.rejected ⟨cause quote, check.span⟩) := by
      refine List.findSome?_eq_some_iff.2 ⟨before, check, after, heq, ?_, fun c hc => ?_⟩
      · rw [fault?, hcheck, Option.map_some, Source.reject, hquote]
      · rw [fault?, hbefore c hc, Option.map_none]
    exact ⟨quote, hquote, hfails _ (by rw [hfirst, Option.some_or])⟩
  · intro hnone
    have hfirst : firstFault? src f.checks = none :=
      List.findSome?_eq_none_iff.2 fun c hc => by rw [fault?, hnone c hc, Option.map_none]
    rw [hfirst, Option.none_or] at hfails hends
    refine ⟨Func.paramTexts_length hnone, fun hbody => ?_, fun body hbody => ?_⟩
    · rw [hbody] at hends
      obtain ⟨t, q, ⟨hrun, htext⟩, hok⟩ := hends rfl
      obtain ⟨hss, rfl⟩ := Lowering.pure_ok.1 hrun
      rw [hss] at htext
      exact ⟨_, hok, rfl, htext⟩
    · intro run
      rw [Option.mem_def.1 hbody] at hfails hends
      refine ⟨fun fault q hrun => hfails _ (congrArg Lowering.faultOf hrun), fun ss q hrun => ?_⟩
      obtain ⟨t, q', ⟨hrun', htext⟩, hok⟩ := hends (congrArg Lowering.faultOf hrun)
      cases hrun.symm.trans hrun'
      exact ⟨_, hok, rfl, htext⟩

/-- `func f(a, b int, _, a bool) rune {}`. -/
def Source.repeated : Source := ⟨"func f(a, b int, _, a bool) rune \x7b\x7d"⟩

/-- Its function, with given names in the second group. -/
def Func.grouped (second : List Ident) : Func where
  name := ⟨"f", ⟨5, 6⟩⟩
  params := ⟨[⟨[⟨"a", ⟨7, 8⟩⟩, ⟨"b", ⟨10, 11⟩⟩], .named ⟨"int", ⟨12, 15⟩⟩, ⟨7, 15⟩⟩,
    ⟨second, .named ⟨"bool", ⟨22, 26⟩⟩, ⟨17, 26⟩⟩], ⟨6, 27⟩⟩
  results := some ⟨[⟨[], .named ⟨"rune", ⟨28, 32⟩⟩, ⟨28, 32⟩⟩], ⟨28, 32⟩⟩
  body := some (.mk [] ⟨33, 35⟩)
  span := ⟨0, 35⟩

/-- The second `a` is refused, after everything before it was accepted; without it the blank name
is written like the others. -/
theorem signature_outcome_grouped :
    let blank : Ident := ⟨"_", ⟨17, 18⟩⟩
    let again : Ident := ⟨"a", ⟨20, 21⟩⟩
    Source.repeated.Slices (Func.grouped [blank, again]).spans ∧
    Source.repeated.Slices (Func.grouped [blank]).spans ∧
    (Func.grouped [blank, again]).lower .repeated .isolated
      = .error (.rejected ⟨.duplicateDeclaration "a", ⟨20, 21⟩⟩) ∧
    ∃ l, (Func.grouped [blank]).lower .repeated .chained = .ok l ∧
      l.text = "QChar f(long long int a, long long int b, bool _) \x7b\n\x7d\n" := by
  intro blank again
  have hs : Source.repeated.Slices (Func.grouped [blank, again]).spans := by
    unfold Source.Slices
    decide +kernel
  have hs' : Source.repeated.Slices (Func.grouped [blank]).spans := by
    unfold Source.Slices
    decide +kernel
  have hbefore : ∀ c ∈ (Func.grouped [blank, again]).checks.take 9, c.failure?.isNone = true := by
    decide +kernel
  have hpass : ∀ c ∈ (Func.grouped [blank]).checks, c.failure?.isNone = true := by decide +kernel
  obtain ⟨-, hfails, -⟩ := signature_outcome hs .isolated
  obtain ⟨quote, -, hlower⟩ := hfails _ (.fresh [⟨"a", ⟨7, 8⟩⟩, ⟨"b", ⟨10, 11⟩⟩, blank] again) [] _
    rfl (fun c hc => Option.isNone_iff_eq_none.1 (hbefore c hc)) rfl
  obtain ⟨-, -, hends⟩ := signature_outcome hs' .chained
  obtain ⟨-, -, hbody⟩ := hends fun c hc => Option.isNone_iff_eq_none.1 (hpass c hc)
  obtain ⟨l, hok, -, htext⟩ := (hbody _ rfl).2 _ _ rfl
  exact ⟨hs, hs', hlower, l, hok, htext⟩

/-! ## Names that are written twice -/

theorem Ident.isBlank_iff {x : Ident} : x.isBlank = true ↔ x.name = "_" := beq_iff_eq

/-- Names are all different just if the names that are not blank are, and no more than one is
blank. -/
theorem Ident.nodup_names_iff {names : List Ident} :
    (names.map Ident.name).Nodup ↔
      (Ident.visible names).Nodup ∧ names.countP Ident.isBlank ≤ 1 := by
  induction names with
  | nil => simp [visible]
  | cons x names ih =>
    rw [List.map_cons, List.nodup_cons, ih, visible_cons, List.countP_cons]
    cases hb : x.isBlank with
    | true =>
      have hnone : x.name ∉ names.map Ident.name ↔ names.countP Ident.isBlank = 0 := by
        simp only [List.countP_eq_zero, isBlank_iff, isBlank_iff.1 hb, List.mem_map, not_exists,
          not_and]
      rw [visible_of_blank hb, hnone, List.nil_append, if_pos rfl]
      constructor
      · rintro ⟨h, hn, -⟩
        exact ⟨hn, by omega⟩
      · rintro ⟨hn, h⟩
        exact ⟨by omega, hn, by omega⟩
    | false =>
      have hmem : x.name ∈ names.map Ident.name ↔ x.name ∈ visible names := by
        rw [mem_visible, List.mem_map]
        refine exists_congr fun y => and_congr_right fun _ => ⟨fun h => ⟨?_, h⟩, And.right⟩
        rw [isBlank, h]
        exact hb
      rw [visible_of_not_blank hb, hmem, List.singleton_append, List.nodup_cons,
        if_neg Bool.false_ne_true, and_assoc, Nat.add_zero]

theorem Scope.grows_of_declare? {s t : Scope} {x : Ident} (h : s.declare? x = some t) :
    s.Grows t (Ident.visible [x]) := by
  unfold declare? at h
  cases hb : x.isBlank with
  | true =>
    rw [if_pos hb] at h
    cases h
    exact Ident.visible_of_blank hb ▸ .refl s
  | false =>
    rw [if_neg (by simp [hb])] at h
    split at h
    · cases h
    · rename_i hd
      cases h
      rw [isDeclaredHere_iff] at hd
      rw [Ident.visible_of_not_blank hb]
      exact Progress.declaring_grows (p := ⟨s, []⟩) hb hd

section Emitted

variable {p q : Progress} {params : List (Primitive × String)}

theorem lowerParamNames_grows {type : Primitive} {names : List Ident}
    (h : (lowerParamNames type names).runFrom p = (.ok params, q)) :
    params.map Prod.snd = names.map Ident.name ∧ p.scope.Grows q.scope (Ident.visible names) := by
  induction names generalizing p params with
  | nil =>
    obtain ⟨rfl, rfl⟩ := Lowering.pure_ok.1 h
    exact ⟨rfl, .refl _⟩
  | cons x names ih =>
    obtain ⟨s, rest, hs, hrest, rfl⟩ := lowerParamNames_cons_ok.1 h
    obtain ⟨hnames, hgrows⟩ := ih hrest
    rw [Ident.visible_cons, List.map_cons, hnames]
    exact ⟨rfl, (Scope.grows_of_declare? hs).trans hgrows⟩

/-- Every name of a parameter list is written, and those that are not blank are declared. -/
theorem lowerParams_grows {fields : List Field}
    (h : (lowerParams src fields).runFrom p = (.ok params, q)) :
    params.map Prod.snd = (fields.flatMap Field.names).map Ident.name ∧
      p.scope.Grows q.scope (Ident.visible (fields.flatMap Field.names)) := by
  induction fields generalizing p params with
  | nil =>
    obtain ⟨rfl, rfl⟩ := Lowering.pure_ok.1 h
    exact ⟨rfl, .refl _⟩
  | cons field fields ih =>
    obtain ⟨ps, r, qs, hps, hqs, rfl⟩ := lowerParams_cons_ok.1 h
    obtain ⟨type, -, -, hnames⟩ := Field.lowerParam_ok.1 hps
    obtain ⟨heq, hgrows⟩ := lowerParamNames_grows hnames
    obtain ⟨heqs, hgrows'⟩ := ih hqs
    rw [List.flatMap_cons, Ident.visible_append, List.map_append, List.map_append, heq, heqs]
    exact ⟨rfl, hgrows.trans hgrows'⟩

end Emitted

/-- **The names of the parameters.** Under either policy, a function that is lowered is written with
the names of its parameter list, in order. Those that are not blank are all different; a blank name
is written wherever it stands, so all are different just if it stands there once at most. -/
theorem Func.params_nodup_iff {f : Func} {l : Func.Lowered} (h : f.lower src policy = .ok l) :
    l.func.params.map Prod.snd = f.paramNames.map Ident.name ∧
    (Ident.visible f.paramNames).Nodup ∧
    ((l.func.params.map Prod.snd).Nodup ↔ f.paramNames.countP Ident.isBlank ≤ 1) := by
  obtain ⟨q, hrun, -⟩ := Func.lower_ok.1 h
  obtain ⟨result, params, r, body, -, hparams, -, heq⟩ := Func.lowerParts_ok.1 hrun
  obtain ⟨hnames, hgrows⟩ := lowerParams_grows hparams
  have hparams' : l.func.params.map Prod.snd = f.paramNames.map Ident.name := by
    rw [heq, hnames, paramNames]
  refine ⟨hparams', hgrows.nodup, ?_⟩
  rw [hparams', Ident.nodup_names_iff]
  exact and_iff_right hgrows.nodup

/-- With one blank name among them the names are different. -/
theorem Func.params_nodup_iff_grouped :
    ∃ l, (Func.grouped [⟨"_", ⟨17, 18⟩⟩]).lower .repeated .isolated = .ok l ∧
      (l.func.params.map Prod.snd).Nodup := by
  obtain ⟨l, hl⟩ : ∃ l, (Func.grouped [⟨"_", ⟨17, 18⟩⟩]).lower .repeated .isolated = .ok l :=
    ⟨_, rfl⟩
  exact ⟨l, hl, (Func.params_nodup_iff hl).2.2.2 (by decide +kernel)⟩

/-- Two parameters without a name of their own. -/
def Source.unnamed : Source := ⟨"func f(_ int, _ int) \x7b\n\x7d\n"⟩

/-- They are both written `_`, which C++ takes for a second parameter of that name. -/
theorem Func.params_repeat_blank :
    ∃ file f l, File.read .unnamed = .ok file ∧ f ∈ file.funcs ∧
      f.lower .unnamed .isolated = .ok l ∧ l.lost = [] ∧
      l.text = "void f(long long int _, long long int _) \x7b\n\x7d\n" ∧
      ¬ (l.func.params.map Prod.snd).Nodup := by
  let blank (start : Nat) : Field :=
    ⟨[⟨"_", ⟨start, start + 1⟩⟩], .named ⟨"int", ⟨start + 2, start + 5⟩⟩, ⟨start, start + 5⟩⟩
  let f : Func :=
    ⟨⟨"f", ⟨5, 6⟩⟩, ⟨[blank 7, blank 14], ⟨6, 20⟩⟩, none, some (.mk [] ⟨21, 24⟩), ⟨0, 24⟩⟩
  have hfuncs : (File.read .unnamed).toOption.map File.funcs = some [f] := by decide +kernel
  obtain ⟨file, hread, hf⟩ := Option.map_eq_some_iff.1 hfuncs
  exact ⟨file, f, _, eq_ok_of_toOption hread, by simp [hf], rfl, rfl, by decide +kernel,
    by decide +kernel⟩

end Recast
