import Recast.Proofs.Clauses
import Recast.Proofs.Specifications

/-!
# What is read stands in the text

The names and the specifications in the functions of a file that is read stand in its text as they
are written (`File.funcs_written`). Where the trees of a phrase end is known already
(`readStmt_yields` and its like), and what follows placed trees is placed too; so of each reader it
is only said here what names and specifications its result has.
-/

namespace Recast

open Forest (Placed)

variable {src : Source} {I : Interior}

/-- A field as it stands in the text. -/
structure Field.Written (src : Source) (f : Field) : Prop where
  names : ∀ x ∈ f.names, x.Written src
  type : ∀ x ∈ f.type.ident?, x.Written src

/-- Specifications that stand in the text as they are. -/
def AllWritten (src : Source) (specs : List Spec) : Prop :=
  ∀ spec ∈ specs, spec.2.Written src spec.1

theorem AllWritten.nil : AllWritten src [] := List.forall_mem_nil _

theorem AllWritten.append {specs specs' : List Spec} (h : AllWritten src specs)
    (k : AllWritten src specs') : AllWritten src (specs ++ specs') :=
  List.forall_mem_append.2 ⟨h, k⟩

theorem Forest.Placed.rest {ts us rest : Forest} (h : Placed src ts) (ht : ts = us ++ rest) :
    Placed src rest := (ht ▸ h).right

/-- Nothing has to be known of expressions. -/
theorem Expr.follows_true (src : Source) : Expr.Follows src fun _ => True := fun _ _ => trivial

/-- The readers for the contents of brackets find specifications as they are written. -/
structure Interior.FindsSpecs (src : Source) (I : Interior) : Prop where
  parts : I.FindsParts src fun _ => True
  params : ∀ {ts : Forest} {fs : List Field}, I.params ts = some fs → Placed src ts →
    ∀ f ∈ fs, f.Written src
  block : ∀ {ts : Forest} {ss : List Stmt}, I.block ts = some ss → Placed src ts →
    AllWritten src (Stmt.listSpecs ss)
  valueSpecs : ∀ {kind : DeclKind} {ts : Forest} {closing : Gap} {specs : List ValueSpec},
    I.valueSpecs kind ts closing = some specs → Placed src ts →
    ∀ spec ∈ specs, spec.Written src kind

/-! ## Lists of phrases -/

/-- What holds of a phrase that is read from placed trees holds of all phrases of a list. -/
theorem Reader.Listed.forall_of_placed {α : Type} {R : α → Forest → Prop} {S : α → Prop}
    {read : Reader α} (ht : read.Takes R)
    (h : ∀ {ts a rest}, read ts = some (a, rest) → Placed src ts → S a) {ts rest : Forest}
    {as : List α} (hl : Listed read ts as rest) (hp : Placed src ts) : ∀ a ∈ as, S a := by
  refine hl.forall_of (fun ha hp => ?_) (fun hp => hp.right) hp
  obtain ⟨us, hus, -⟩ := ht ha
  exact ⟨h ha hp, hp.rest hus⟩

/-! ## Headers -/

theorem Stmt.specs_of_isFlat {s : Stmt} (h : s.isFlat = true) : s.specs = [] := by
  cases s with
  | ret | assign | step | unsupported => rfl
  | decl | cond | loop | block => cases h

theorem AllWritten.of_isFlat {s : Stmt} (h : s.isFlat = true) : AllWritten src s.specs :=
  Stmt.specs_of_isFlat h ▸ .nil

/-- A clause declares nothing by `var` or `const`. -/
theorem Stmt.optionSpecs_of_isClause {s : Option Stmt} (h : ∀ t ∈ s, t.isClause = true) :
    Stmt.optionSpecs s = [] := by
  cases s with
  | none => rfl
  | some s => exact Stmt.specs_of_isFlat (Stmt.isFlat_of_isClause (h s rfl))

/-! ## Statements -/

theorem readBlock_written (hI : I.FindsSpecs src) {ts rest : Forest} {b : Block}
    (h : readBlock I ts = some (b, rest)) (hp : Placed src ts) : AllWritten src b.specs := by
  obtain ⟨_, _, _, _, stmts, rfl, hs, rfl⟩ := readBlock_eq_some h
  exact hI.block hs hp.head.inner

/-- The header of a conditional has no specifications, so those of the conditional are those of its
body and of what follows the body. -/
theorem cond_written (hI : I.FindsSpecs src) {t : Tree} {ts rest₁ rest₂ : Forest}
    {init other : Option Stmt} {test : Expr} {body : Block} {span : Span}
    (hh : readHeader I ts = some (init, test, rest₁))
    (hb : readBlock I rest₁ = some (body, rest₂)) (hp : Placed src (t :: ts))
    (ho : Placed src rest₂ → AllWritten src (Stmt.optionSpecs other)) :
    AllWritten src (Stmt.cond init test body other span).specs := by
  obtain ⟨us, hus, -, -⟩ := readHeader_has hI.parts (Expr.follows_true src) hh
  have hp₁ : Placed src rest₁ := hp.tail.rest hus
  obtain ⟨vs, hvs, -⟩ := readBlock_yields hI.parts hb
  rw [Stmt.specs, Stmt.optionSpecs_of_isClause (readHeader_isClause hh), List.nil_append]
  exact (readBlock_written hI hb hp₁).append (ho (hp₁.rest hvs))

theorem Conditional.written (hI : I.FindsSpecs src) {ts rest : Forest} {s : Stmt}
    (h : Conditional I ts s rest) (hp : Placed src ts) : AllWritten src s.specs := by
  induction h with
  | alone hh hb => exact cond_written hI hh hb hp fun _ => .nil
  | chained hh hb _ ih => exact cond_written hI hh hb hp fun hp => ih hp.tail
  | closed hh hb ho =>
    exact cond_written hI hh hb hp fun hp => readBlock_written hI ho hp.tail

theorem readFor_written (hI : I.FindsSpecs src) {ts rest : Forest} {s : Stmt}
    (h : readFor I ts = some (s, rest)) (hp : Placed src ts) : AllWritten src s.specs := by
  obtain ⟨t, us, header, rest₁, body, rfl, hh, hb, rfl⟩ := readFor_eq_some h
  obtain ⟨vs, hvs, -⟩ := LoopHeader.read_has hI.parts (Expr.follows_true src) hh
  have hclauses := LoopHeader.read_hasClauses hh
  cases header with
  | clauses init test post =>
    rw [LoopHeader.stmt, Stmt.specs, Stmt.optionSpecs_of_isClause hclauses.1,
      Stmt.optionSpecs_of_isClause hclauses.2]
    exact readBlock_written hI hb (hp.tail.rest hvs)
  | range => exact .nil

theorem readValueDecl_written (hI : I.FindsSpecs src) {kind : DeclKind} {ts rest : Forest}
    {p : Phrase} (h : readValueDecl I kind ts = some (p, rest)) (hp : Placed src ts) :
    AllWritten src p.stmt.specs := by
  have hdecl : ∀ {specs : List ValueSpec} {span : Span},
      (∀ spec ∈ specs, spec.Written src kind) →
      AllWritten src (Stmt.decl kind specs span).specs := by
    intro specs span hs spec hspec
    obtain ⟨spec', hmem, rfl⟩ := List.mem_map.1 hspec
    exact hs spec' hmem
  obtain ⟨t, us, specs, rfl, hstmt, hspecs⟩ := readValueDecl_eq_some h
  rw [hstmt]
  rcases hspecs with ⟨_, _, _, _, rfl, hs⟩ | ⟨spec, rfl, hs⟩
  · exact hdecl (hI.valueSpecs hs hp.tail.head.inner)
  · obtain ⟨us, rfl, xs, hm⟩ := ValueSpec.read_made hI.parts.exprs kind hs
    exact hdecl (List.forall_mem_singleton.2 (hm.written hp.tail.left))

theorem readStmt_written (hI : I.FindsSpecs src) {ts rest : Forest} {p : Phrase}
    (h : readStmt I ts = some (p, rest)) (hp : Placed src ts) : AllWritten src p.stmt.specs := by
  cases stmtReading_of_readStmt h with
  | flat h => exact .of_isFlat h
  | decl h => exact readValueDecl_written hI h hp
  | cond h => exact (conditional_of_readIf h).written hI hp
  | loop h => exact readFor_written hI h hp
  | block hb h =>
    rw [hb]
    exact readBlock_written hI h hp

theorem Stmt.listSpecs_written {ss : List Stmt} (h : ∀ s ∈ ss, AllWritten src s.specs) :
    AllWritten src (Stmt.listSpecs ss) := by
  induction ss with
  | nil => exact .nil
  | cons s ss ih =>
    obtain ⟨hs, hss⟩ := List.forall_mem_cons.1 h
    exact hs.append (ih hss)

theorem readListed_written (hI : I.FindsSpecs src) {stop : Tree → Bool} {ts rest : Forest}
    {p : Phrase} (h : readListed I stop ts = some (p, rest)) (hp : Placed src ts) :
    AllWritten src p.stmt.specs := by
  rcases readListed_cases h with h | ⟨a, b, rfl, rfl⟩
  · exact readStmt_written hI h hp
  · exact .nil

theorem readStmts_written (hI : I.FindsSpecs src) {ts : Forest} {ss : List Stmt}
    (h : readStmts I ts = some ss) (hp : Placed src ts) : AllWritten src (Stmt.listSpecs ss) := by
  obtain ⟨ps, hps, rfl⟩ := readStmts_eq_some h
  have hall := (readList_listed hps).forall_of_placed
    (readListed_yields hI.parts (Expr.follows_true src)) (readListed_written hI) hp
  refine Stmt.listSpecs_written fun s hs => ?_
  obtain ⟨p, hmem, rfl⟩ := List.mem_map.1 hs
  exact hall p (List.mem_of_mem_filter hmem)

theorem ValueSpec.readGroup_written (hI : I.MakesExprs) {kind : DeclKind} {ts : Forest}
    {closing : Gap} {specs : List ValueSpec} (h : readGroup I kind ts closing = some specs)
    (hp : Placed src ts) : ∀ spec ∈ specs, spec.Written src kind := by
  unfold readGroup at h
  split at h
  · intro spec hspec
    have ha := Reader.Takes.allLines (read_made hI kind) h
    obtain ⟨us, hus, xs, hm⟩ := ha.forall_placed hp spec hspec
    exact hm.written hus
  · cases h

/-! ## Parameters -/

theorem Param.fields_written {words : List Ident} {ps : List Param}
    (hw : ∀ x ∈ words, x.Written src) (hp : ∀ p ∈ ps, ∃ us, Placed src us ∧ p.MadeOf us) :
    ∀ f ∈ fields words ps, f.Written src := by
  have hunnamed : ∀ {words : List Ident}, (∀ x ∈ words, x.Written src) →
      ∀ f ∈ words.reverse.map unnamedField, f.Written src := by
    intro words hw f hf
    obtain ⟨x, hx, rfl⟩ := List.mem_map.1 hf
    have hx := hw x (List.mem_reverse.1 hx)
    exact ⟨List.forall_mem_nil _, fun y hy => Option.some.inj hy ▸ hx⟩
  induction ps generalizing words with
  | nil =>
    rw [fields]
    exact hunnamed hw
  | cons p ps ih =>
    obtain ⟨⟨us, hus, hm⟩, hps⟩ := List.forall_mem_cons.1 hp
    have hrest := ih (List.forall_mem_nil _) hps
    cases hm with
    | bare =>
      rw [fields]
      exact ih (List.forall_mem_cons.2 ⟨⟨_, hus.head.lexeme⟩, hw⟩) hps
    | unnamed ht =>
      rw [fields, List.forall_mem_append, List.forall_mem_cons]
      exact ⟨hunnamed hw, ⟨List.forall_mem_nil _, ht.written hus⟩, hrest⟩
    | named ht =>
      rw [fields, List.forall_mem_cons]
      refine ⟨⟨fun x hx => ?_, ht.written hus.tail⟩, hrest⟩
      rcases List.mem_append.1 hx with hx | hx
      · exact hw x (List.mem_reverse.1 hx)
      · exact List.mem_singleton.1 hx ▸ ⟨_, hus.head.lexeme⟩
    | variadic hu =>
      rw [fields, List.forall_mem_append, List.forall_mem_cons]
      exact ⟨hunnamed hw, ⟨List.forall_mem_nil _, fun x hx => by cases hx⟩, hrest⟩
    | variadicNamed =>
      rw [fields, List.forall_mem_append, List.forall_mem_cons]
      refine ⟨hunnamed hw, ⟨fun x hx => ?_, fun x hx => by cases hx⟩, hrest⟩
      exact List.mem_singleton.1 hx ▸ ⟨_, hus.head.lexeme⟩

theorem Param.readAll_written {ts : Forest} {fs : List Field} (h : readAll I ts = some fs)
    (hp : Placed src ts) : ∀ f ∈ fs, f.Written src := by
  unfold readAll at h
  split at h
  · cases h
    exact List.forall_mem_nil _
  · obtain ⟨ps, hps, rfl⟩ := Option.map_eq_some_iff.1 h
    have ha := Forest.members_mapM (fun _ _ => read?_made I) hps
    exact fields_written (List.forall_mem_nil _) (ha.forall_placed hp)

/-! ## The knot -/

namespace Interior

theorem findsSpecs_none : Interior.none.FindsSpecs src where
  parts := findsParts_none
  params h := by cases h
  block h := by cases h
  valueSpecs h := by cases h

theorem FindsSpecs.deepen (h : I.FindsSpecs src) : I.deepen.FindsSpecs src where
  parts := h.parts.deepen (Expr.follows_true src)
  params := Param.readAll_written
  block := readStmts_written h
  valueSpecs := ValueSpec.readGroup_written h.parts.exprs

theorem findsSpecs_ofDepth (n : Nat) : (Interior.ofDepth n).FindsSpecs src := by
  induction n with
  | zero => exact findsSpecs_none
  | succ n ih => exact ih.deepen

end Interior

/-! ## Functions -/

/-- A function as it stands in the text: its name, those of its parameters and its results, and the
specifications in its body. -/
structure Func.Written (src : Source) (f : Func) : Prop where
  name : f.name.Written src
  params : ∀ g ∈ f.params.fields, g.Written src
  results : ∀ fs ∈ f.results, ∀ g ∈ fs.fields, g.Written src
  specs : AllWritten src f.specs

theorem readResults_written (hI : I.FindsSpecs src) {ts rest : Forest}
    {results : Option FieldList} (h : readResults I ts = some (results, rest))
    (hp : Placed src ts) : ∀ fs ∈ results, ∀ g ∈ fs.fields, g.Written src := by
  unfold readResults at h
  split at h
  · cases h
    simp
  · split at h
    · cases h
      simp
    · obtain ⟨fs, hf, he⟩ := Option.map_eq_some_iff.1 h
      cases he
      intro fs' hfs
      cases hfs
      exact hI.params hf hp.head.inner
  · split at h
    · obtain ⟨⟨type, rest₁⟩, ht, he⟩ := Option.map_eq_some_iff.1 h
      cases he
      obtain ⟨us, hus, hm⟩ := TypeExpr.read_made I true ht
      rw [hus] at hp
      intro fs hfs
      cases hfs
      exact List.forall_mem_singleton.2 ⟨List.forall_mem_nil _, hm.written hp.left⟩
    · cases h
      simp

theorem readBody_written (hI : I.FindsSpecs src) {ts rest : Forest} {body : Option Block}
    (h : readBody I ts = some (body, rest)) (hp : Placed src ts) :
    AllWritten src (body.elim [] Block.specs) := by
  rcases readBody_eq_some h with ⟨rfl, -⟩ | ⟨b, rfl, hb⟩
  · exact .nil
  · exact readBlock_written hI hb hp

theorem readFunc_written (hI : I.FindsSpecs src) {ts rest : Forest} {f : Func}
    (h : readFunc I ts = some (f, rest)) (hp : Placed src ts) : f.Written src := by
  obtain ⟨t, u, skipped, rest₁, rfl, hname, hs, -⟩ := readFunc_eq_some h
  obtain ⟨gap, rfl⟩ := Tree.ident?_eq_some hname
  obtain ⟨_, _, _, rest₂, rest₃, rfl, hf, hr, hb⟩ := readSignature_eq_some hs
  have hp₁ := hp.tail.tail.right
  obtain ⟨us, hus, -⟩ := readResults_has hI.parts hr
  exact ⟨⟨gap, hp.tail.head.lexeme⟩, hI.params hf hp₁.head.inner,
    readResults_written hI hr hp₁.tail, readBody_written hI hb (hp₁.tail.rest hus)⟩

/-- Of the items only functions matter. -/
def Item.Written (src : Source) : Item → Prop
  | .func f => f.Written src
  | .other .. => True

theorem readItem_written (hI : I.FindsSpecs src) {ts rest : Forest} {i : Item}
    (h : readItem I ts = some (i, rest)) (hp : Placed src ts) : i.Written src := by
  rcases readItem_cases h with ⟨f, rfl, hf⟩ | ⟨kind, span, rfl⟩
  · exact readFunc_written hI hf hp
  · trivial

namespace File

theorem readItems_written {ts : Forest} {items : List Item} (h : readItems ts = .ok items)
    (hp : Placed src ts) : ∀ i ∈ items, i.Written src := by
  obtain ⟨rest, hl⟩ := readItems_listed h
  have hI : (Interior.ofDepth (Tree.depthList ts)).FindsSpecs src := Interior.findsSpecs_ofDepth _
  exact hl.forall_of_placed (readItem_yields hI.parts (Expr.follows_true src))
    (readItem_written hI) hp

/-- The functions of a file that is read stand in its text. -/
theorem funcs_written {file : File} (h : read src = .ok file) :
    ∀ f ∈ file.funcs, f.Written src := by
  obtain ⟨-, ps, ts, items, hps, hts, hitems, rfl⟩ := read_eq_ok_iff.1 h
  have hall := readItems_written hitems (Forest.ofLexemes_placed hps hts)
  intro f hf
  exact hall _ (mem_funcs.1 hf)

theorem specs_written {file : File} (h : read src = .ok file) : AllWritten src file.specs := by
  intro spec hspec
  obtain ⟨f, hf, hspec⟩ := List.mem_flatMap.1 hspec
  exact (funcs_written h f hf).specs spec hspec

end File

end Recast
