import Recast.Grammar.Decl
import Recast.Proofs.Parts
import Recast.Proofs.ReadExpr
import Recast.Proofs.Readings
import Mathlib.Data.Option.Basic

/-!
# Reading parameters and declarations

The parts that the readers of parameter lists and of declarations find: the fields of a list
(`Param.readAll_has`), and the specifications of a declaration (`readValueDecl_yields`). A field of
several names begins with the first of them, which may stand some members before the type that they
share, so the words that wait for a type are kept as a stretch of trees of their own (`Words`).
-/

namespace Recast

open Forest (hull Along Yields Has)

/-! ## Parameters -/

def Field.part (src : Source) (f : Field) : Part := (f.span, f.Sound src)

/-- A field over trees that have its names and that have its type. -/
theorem Field.yields {src : Source} {f : Field} {us : Forest} (hn : us ≠ []) (hs : f.span = hull us)
    (hnames : Has src (f.names.map (Ident.part src)) us) (htype : Has src [f.type.part src] us) :
    Yields src (f.part src) us := by
  refine ⟨hn, hs, fun hp => ?_⟩
  have hx := hnames.carries.hull_holds hp
  have ht := htype.carries.hull_holds hp
  rw [List.map_map] at hx
  rw [← hs] at hx ht
  exact ⟨⟨hs ▸ hp.covers_hull hn, hx⟩, ht.inside _ List.mem_cons_self,
    Part.forall_mem_of_map (hnames.sound hp), htype.sound hp _ List.mem_cons_self⟩

namespace Param

/-- The trees of a member of a parameter list. -/
inductive MadeOf : Param → Forest → Prop
  | bare {x : Ident} {gap : Gap} : MadeOf (.bare x) [.leaf ⟨.word x.name, gap, x.span⟩]
  | unnamed {type : TypeExpr} {us : Forest} (ht : type.MadeOf us) : MadeOf (.unnamed type) us
  | named {x : Ident} {gap : Gap} {type : TypeExpr} {us : Forest} (ht : type.MadeOf us) :
      MadeOf (.named x type) (.leaf ⟨.word x.name, gap, x.span⟩ :: us)
  | variadic {us : Forest} (hu : us ≠ []) : MadeOf (.variadic none (hull us)) us
  | variadicNamed {x : Ident} {gap : Gap} {us : Forest} :
      MadeOf (.variadic (some x) (hull (.leaf ⟨.word x.name, gap, x.span⟩ :: us)))
        (.leaf ⟨.word x.name, gap, x.span⟩ :: us)

theorem variadic?_eq_some {I : Interior} {x : Option Ident} {first : Tree} (skipped : Forest)
    {ts : Forest} {p : Param} (h : read?.variadic? I x first ts = some p) :
    p = .variadic x (hull (first :: (skipped ++ ts))) := by
  obtain ⟨type, ht, rfl⟩ := Option.map_eq_some_iff.1 h
  have hm := Reader.Takes.whole (TypeExpr.read_made I false) ht
  rw [hm.span_eq, Forest.hull_cons (by simp [hm.ne_nil])]
  by_cases hs : skipped = []
  · rw [hs, List.nil_append]
  · rw [Forest.hull_append hs hm.ne_nil]
    rfl

theorem read?_made (I : Interior) {ts : Forest} {p : Param} (h : read? I ts = some p) :
    p.MadeOf ts := by
  unfold read? at h
  split at h
  · rename_i x hx
    cases h
    have hm := Reader.Takes.whole (TypeExpr.read_made I false) hx
    cases hm
    exact .bare
  · rename_i type ht
    cases h
    exact .unnamed (Reader.Takes.whole (TypeExpr.read_made I false) ht)
  · split at h
    · cases h
    · rename_i t rest
      dsimp only at h
      split at h
      · rw [variadic?_eq_some [] h]
        exact .variadic (by simp)
      · split at h
        · rename_i x u rest' hx
          obtain ⟨hx, -⟩ := Option.filter_eq_some_iff.1 hx
          obtain ⟨gap, rfl⟩ := Tree.ident?_eq_some hx
          split at h
          · rw [variadic?_eq_some [u] h]
            exact .variadicNamed
          · obtain ⟨type, ht, rfl⟩ := Option.map_eq_some_iff.1 h
            exact .named (Reader.Takes.whole (TypeExpr.read_made I false) ht)
        · cases h

/-- Bare words, from the first of them on. -/
def Words : List Ident → Forest → Prop
  | [], us => us = []
  | x :: xs, us => ∃ gap ws, us = .leaf ⟨.word x.name, gap, x.span⟩ :: ws ∧
      Along (fun y vs => ∃ gap, vs = [.leaf ⟨.word y.name, gap, y.span⟩]) xs ws

theorem Words.append {xs : List Ident} {us : Forest} (h : Words xs us) (skipped : Forest)
    (x : Ident) (gap : Gap) :
    ∃ front ws, us ++ (skipped ++ [.leaf ⟨.word x.name, gap, x.span⟩]) = front ++ ws ∧
      Words (xs ++ [x]) ws := by
  cases xs with
  | nil =>
    obtain rfl : us = [] := h
    exact ⟨skipped, _, rfl, gap, [], rfl, .nil⟩
  | cons y ys =>
    obtain ⟨gap', ws, rfl, hw⟩ := h
    refine ⟨[], _, rfl, gap', _, List.cons_append .., hw.append ?_⟩
    have hx : Along (fun (y : Ident) vs => ∃ gap, vs = [Tree.leaf ⟨.word y.name, gap, y.span⟩])
        [x] [.leaf ⟨.word x.name, gap, x.span⟩] := .singleton ⟨gap, rfl⟩
    exact hx.skips skipped

theorem Words.along {xs : List Ident} {us : Forest} (h : Words xs us) :
    Along (fun y vs => ∃ gap, vs = [Tree.leaf ⟨.word y.name, gap, y.span⟩]) xs us := by
  cases xs with
  | nil => exact .nil
  | cons x xs =>
    obtain ⟨gap, ws, rfl, hw⟩ := h
    exact .cons [] ⟨gap, rfl⟩ hw

variable {src : Source}

theorem Words.has {xs : List Ident} {us : Forest} (h : Words xs us) :
    Has src (xs.map (Ident.part src)) us :=
  h.along.has fun _ _ hx => by
    obtain ⟨gap, rfl⟩ := hx
    exact Tree.word_yields

theorem Words.ne_nil {xs : List Ident} {us : Forest} (h : Words xs us) (hn : xs ≠ []) :
    us ≠ [] := by
  cases xs with
  | nil => exact absurd rfl hn
  | cons x xs =>
    obtain ⟨gap, ws, rfl, -⟩ := h
    simp

theorem Words.start {xs : List Ident} {us : Forest} (h : Words xs us) (hn : xs ≠ []) (y : Ident) :
    (xs.headD y).span.start = (hull us).start := by
  cases xs with
  | nil => exact absurd rfl hn
  | cons x xs =>
    obtain ⟨gap, ws, rfl, -⟩ := h
    rfl

theorem unnamedField_yields {x : Ident} {gap : Gap} :
    Yields src ((unnamedField x).part src) [.leaf ⟨.word x.name, gap, x.span⟩] :=
  Field.yields (by simp) rfl .nil TypeExpr.MadeOf.named.yields.has

theorem Words.unnamed_has {xs : List Ident} {us : Forest} (h : Words xs us) :
    Has src ((xs.map unnamedField).map (Field.part src)) us := by
  rw [List.map_map]
  refine h.along.has fun x _ hx => ?_
  obtain ⟨gap, rfl⟩ := hx
  exact unnamedField_yields

/-- The fields of a list, given the trees of the bare words that wait for a type. -/
theorem fields_has {words : List Ident} {ps : List Param} {us ts : Forest}
    (hw : Words words.reverse us) (hp : Along MadeOf ps ts) :
    Has src ((fields words ps).map (Field.part src)) (us ++ ts) := by
  induction hp generalizing words us with
  | nil =>
    rw [fields]
    exact hw.unnamed_has.more _
  | @cons p ps vs ts skipped hm _ ih =>
    have hall : us ++ (skipped ++ vs ++ ts) = us ++ (skipped ++ vs) ++ ts := by simp
    have hrest : Has src ((fields [] ps).map (Field.part src)) ([] ++ ts) := ih rfl
    rw [List.nil_append] at hrest
    cases hm with
    | bare =>
      rw [fields]
      obtain ⟨front, ws, he, hws⟩ := hw.append skipped _ _
      rw [← List.reverse_cons] at hws
      have hr := (ih hws).skips front
      rw [hall, he, List.append_assoc]
      exact hr
    | @unnamed type _ ht =>
      rw [fields, List.map_append, List.map_cons]
      have hf : Yields src (Field.part src ⟨[], type, type.span⟩) vs :=
        Field.yields ht.ne_nil ht.span_eq .nil ht.yields.has
      rw [List.append_assoc]
      exact hw.unnamed_has.append ((hf.has.append hrest).skips skipped)
    | @named x gap type ws ht =>
      rw [fields, List.map_cons]
      obtain ⟨front, names, he, hnames⟩ := hw.append skipped x gap
      have hn : words.reverse ++ [x] ≠ [] := by simp
      have hs : ((words.reverse ++ [x]).headD x).span.through type.span = hull (names ++ ws) := by
        rw [Forest.hull_append (hnames.ne_nil hn) ht.ne_nil, ht.span_eq, Span.through,
          hnames.start hn]
        rfl
      have hf : Yields src (Field.part src ⟨words.reverse ++ [x], type, _⟩) (names ++ ws) :=
        Field.yields (by simp [hnames.ne_nil hn]) hs (hnames.has.more ws)
          (ht.yields.has.skips names)
      have htrees : us ++ (skipped ++ .leaf ⟨.word x.name, gap, x.span⟩ :: ws ++ ts)
          = front ++ (names ++ ws ++ ts) := by
        rw [← List.singleton_append]
        simp only [← List.append_assoc] at he ⊢
        rw [he]
      rw [htrees]
      exact (hf.has.append hrest).skips front
    | @variadic vs hu =>
      rw [fields, List.map_append, List.map_cons]
      have hm := TypeExpr.MadeOf.unsupported hu
      have hf : Yields src (Field.part src ⟨[], .unsupported (hull vs), hull vs⟩) vs :=
        Field.yields hu rfl .nil hm.yields.has
      rw [List.append_assoc]
      exact hw.unnamed_has.append ((hf.has.append hrest).skips skipped)
    | @variadicNamed x gap ws =>
      rw [fields, List.map_append, List.map_cons]
      have hn : Tree.leaf ⟨.word x.name, gap, x.span⟩ :: ws ≠ [] := List.cons_ne_nil _ _
      have hx : Has src [x.part src] ([.leaf ⟨.word x.name, gap, x.span⟩] ++ ws) :=
        Tree.word_yields.has.more ws
      have hf : Yields src (Field.part src ⟨[x], .unsupported _, _⟩) _ :=
        Field.yields hn rfl hx (TypeExpr.MadeOf.unsupported hn).yields.has
      rw [List.append_assoc]
      exact hw.unnamed_has.append ((hf.has.append hrest).skips skipped)

theorem readAll_has (I : Interior) {ts : Forest} {fs : List Field} (h : readAll I ts = some fs) :
    Has src (fs.map (Field.part src)) ts := by
  unfold readAll at h
  split at h
  · cases h
    exact .nil
  · obtain ⟨ps, hps, rfl⟩ := Option.map_eq_some_iff.1 h
    have ha := Forest.members_mapM (fun _ _ => read?_made I) hps
    have hf : Has src ((fields [] ps).map (Field.part src)) ([] ++ ts) := fields_has rfl ha
    exact hf

end Param

/-! ## Contents of brackets -/

/-- The readers for the contents of brackets find parts that follow one another. -/
structure Interior.FindsParts (src : Source) (P : Expr → Prop) (I : Interior) : Prop where
  exprs : I.MakesExprs
  params : ∀ {ts : Forest} {fs : List Field}, I.params ts = some fs →
    Has src (fs.map (Field.part src)) ts
  block : ∀ {ts : Forest} {ss : List Stmt}, I.block ts = some ss →
    Has src (ss.map (Stmt.part src P)) ts
  valueSpecs : ∀ {kind : DeclKind} {ts : Forest} {closing : Gap} {specs : List ValueSpec},
    I.valueSpecs kind ts closing = some specs → Has src (specs.map (ValueSpec.part src P)) ts

variable {src : Source} {P : Expr → Prop} {I : Interior}

/-! ## Variables and constants -/

/-- Names that follow one another. -/
structure NamesOf (src : Source) (xs : List Ident) (us : Forest) : Prop where
  ne_nil : us ≠ []
  along : Along (fun x => Yields src (Ident.part src x)) xs us

theorem readNames_takes (line : Bool) : Reader.Takes (readNames line) (NamesOf src) := by
  intro ts xs rest h
  induction hn : ts.length using Nat.strongRecOn generalizing ts xs with
  | _ n ih =>
    unfold readNames at h
    split at h
    · cases h
    · rename_i t ts
      split at h
      · cases h
      · rename_i x hx
        have hone : NamesOf src [x] [t] := ⟨by simp, .singleton (Tree.ident?_yields hx)⟩
        split at h
        · rename_i comma ts'
          split at h
          · rename_i hcomma
            obtain ⟨hc, -⟩ := Bool.and_eq_true_iff.1 hcomma
            obtain ⟨⟨ys, rest'⟩, hr, he⟩ := Option.map_eq_some_iff.1 h
            cases he
            have hl : ts'.length < n := by
              rw [← hn, List.length_cons, List.length_cons]
              omega
            obtain ⟨us, rfl, hus⟩ := ih _ hl hr rfl
            refine ⟨t :: comma :: us, rfl, by simp, ?_⟩
            have hcu : Along (fun x => Yields src (Ident.part src x)) (_ :: ys) ([comma] ++ us) :=
              .consRead (Tree.comma_yields hc) hus.along
            have hx : Yields src (x.part src) [t] := Tree.ident?_yields hx
            exact .consRead (R := fun x => Yields src (Ident.part src x)) hx hcu
          · cases h
            exact ⟨[t], rfl, hone⟩
        · cases h
          exact ⟨[t], rfl, hone⟩

namespace ValueSpec

theorem readValues_takes (hI : I.MakesExprs) :
    Reader.Takes (readValues I) fun es us => Along Expr.MadeOf es us := by
  intro ts es rest h
  unfold readValues at h
  split at h
  · cases h
  · rename_i t ts
    split at h
    · obtain ⟨us, rfl, hus⟩ := Expr.readList_made hI h
      exact ⟨t :: us, rfl, hus.along.skips [t]⟩
    · cases h

/-- The type and the values of a specification, in this order. -/
def Tail (type : Option TypeExpr) (values : List Expr) (us : Forest) : Prop :=
  ∃ vs ws, us = vs ++ ws ∧ Along TypeExpr.MadeOf type.toList vs ∧ Along Expr.MadeOf values ws

theorem readVar_takes (hI : I.MakesExprs) {type : Option TypeExpr} {values : List Expr}
    {ts rest : Forest} (h : readVar I ts = some (type, values, rest)) :
    ∃ us, ts = us ++ rest ∧ Tail type values us := by
  unfold readVar at h
  split at h
  · rename_i hv
    cases h
    obtain ⟨us, rfl, hus⟩ := readValues_takes hI hv
    exact ⟨us, rfl, [], us, rfl, .nil, hus⟩
  · obtain ⟨⟨t, rest'⟩, ht, hr⟩ := Option.bind_eq_some_iff.1 h
    obtain ⟨us, rfl, hm⟩ := TypeExpr.read_made I true ht
    dsimp only at hr
    split at hr
    · obtain ⟨⟨vs, rest''⟩, hv, hr⟩ := Option.bind_eq_some_iff.1 hr
      cases hr
      obtain ⟨ws, rfl, hws⟩ := readValues_takes hI hv
      exact ⟨us ++ ws, (List.append_assoc us ws _).symm, us, ws, rfl, .singleton hm, hws⟩
    · cases hr
      exact ⟨us, rfl, us, [], (List.append_nil us).symm, .singleton hm, .nil⟩

theorem readConst_takes (hI : I.MakesExprs) {type : Option TypeExpr} {values : List Expr}
    {ts rest : Forest} (h : readConst I ts = some (type, values, rest)) :
    ∃ us, ts = us ++ rest ∧ Tail type values us := by
  unfold readConst at h
  split at h
  · cases h
    exact ⟨[], rfl, [], [], rfl, .nil, .nil⟩
  · split at h
    · rename_i hv
      cases h
      obtain ⟨us, rfl, hus⟩ := readValues_takes hI hv
      exact ⟨us, rfl, [], us, rfl, .nil, hus⟩
    · obtain ⟨⟨t, rest'⟩, ht, hr⟩ := Option.bind_eq_some_iff.1 h
      obtain ⟨us, rfl, hm⟩ := TypeExpr.read_made I false ht
      obtain ⟨⟨vs, rest''⟩, hv, hr⟩ := Option.bind_eq_some_iff.1 hr
      cases hr
      obtain ⟨ws, rfl, hws⟩ := readValues_takes hI hv
      exact ⟨us ++ ws, (List.append_assoc us ws _).symm, us, ws, rfl, .singleton hm, hws⟩

/-- A specification over its names, its type and its values. -/
theorem yields (hP : Expr.Follows src P) {names : List Ident} {type : Option TypeExpr}
    {values : List Expr} {us vs : Forest} (hu : us ≠ [])
    (hn : Along (fun x => Yields src (Ident.part src x)) names us)
    (ht : Tail type values vs) :
    Yields src (ValueSpec.part src P ⟨names, type, values, hull (us ++ vs)⟩) (us ++ vs) := by
  obtain ⟨ts, es, rfl, hts, hes⟩ := ht
  have hnames := hn.has fun _ _ hx => hx
  have htype : Has src (type.toList.map (TypeExpr.part src)) ts := hts.has fun _ _ ht => ht.yields
  have hvalues := hes.has fun _ _ he => he.yields hP
  refine ((hnames.append (htype.append hvalues)).yields (by simp [hu]) fun hs hp => ?_)
  obtain ⟨hnames, hp⟩ := List.forall_mem_append.1 hp
  obtain ⟨htype, hvalues⟩ := List.forall_mem_append.1 hp
  refine ⟨?_, Part.forall_mem_of_map hnames, fun t ht => ?_, Part.forall_mem_of_map hvalues⟩
  · simpa [parts, Function.comp_def, Ident.part, TypeExpr.part, Expr.part] using hs
  · exact htype _ (List.mem_map_of_mem (Option.mem_toList.2 ht))

theorem read_yields (hI : I.MakesExprs) (hP : Expr.Follows src P) (kind : DeclKind) :
    Reader.Takes (read I kind) fun spec us => Yields src (spec.part src P) us := by
  intro ts spec rest h
  obtain ⟨⟨names, rest'⟩, hn, hr⟩ := Option.bind_eq_some_iff.1 h
  obtain ⟨us, rfl, hus⟩ : ∃ us, ts = us ++ rest' ∧ NamesOf src names us := readNames_takes _ hn
  dsimp only at hr
  split at hr
  · obtain ⟨⟨type, values, rest''⟩, ht, hr⟩ := Option.bind_eq_some_iff.1 hr
    obtain ⟨vs, rfl, hvs⟩ := readVar_takes hI ht
    cases hr
    refine ⟨us ++ vs, (List.append_assoc us vs _).symm, ?_⟩
    rw [← List.append_assoc, Forest.spanOf_append]
    exact yields hP hus.ne_nil hus.along.filter hvs
  · obtain ⟨⟨type, values, rest''⟩, ht, hr⟩ := Option.bind_eq_some_iff.1 hr
    obtain ⟨vs, rfl, hvs⟩ := readConst_takes hI ht
    cases hr
    refine ⟨us ++ vs, (List.append_assoc us vs _).symm, ?_⟩
    rw [← List.append_assoc, Forest.spanOf_append]
    exact yields hP hus.ne_nil hus.along hvs

theorem readGroup_has (hI : I.MakesExprs) (hP : Expr.Follows src P) {kind : DeclKind}
    {ts : Forest} {closing : Gap} {specs : List ValueSpec}
    (h : readGroup I kind ts closing = some specs) :
    Has src (specs.map (ValueSpec.part src P)) ts := by
  unfold readGroup at h
  split at h
  · exact (Reader.Takes.allLines (read_yields hI hP kind) h).has fun _ _ hs => hs
  · cases h

end ValueSpec

/-! ## Declarations -/

/-- The part that the statement of a phrase is. -/
def Phrase.part (src : Source) (P : Expr → Prop) (p : Phrase) : Part := p.stmt.part src P

theorem Phrase.opaquely_yields (kind : ItemKind) {us rest : Forest} (hu : us ≠ []) :
    Yields src ((Phrase.opaquely kind (us ++ rest) rest).part src P) us := by
  rw [Phrase.opaquely, Forest.spanOf_append]
  exact Forest.yields_unsupported P hu

theorem decl_yields {kind : DeclKind} {specs : List ValueSpec} {us : Forest} (hu : us ≠ [])
    (hs : Has src (specs.map (ValueSpec.part src P)) us) :
    Yields src (Stmt.part src P (.decl kind specs (hull us))) us := by
  refine hs.yields hu fun hs hp => .decl ?_ (Part.forall_mem_of_map hp)
  rwa [List.map_map] at hs

theorem readValueDecl_yields (hI : I.FindsParts src P) (hP : Expr.Follows src P)
    (kind : DeclKind) :
    Reader.Takes (readValueDecl I kind) fun p us => Yields src (p.part src P) us := by
  intro ts p rest h
  obtain ⟨t, us, specs, rfl, hstmt, hspecs⟩ := readValueDecl_eq_some h
  dsimp only [Phrase.part]
  rw [hstmt]
  rcases hspecs with ⟨gap, inner, closing, span, rfl, hs⟩ | ⟨spec, rfl, hs⟩
  · have hts : t :: .group .paren gap inner closing span :: rest
        = [t, .group .paren gap inner closing span] ++ rest := rfl
    rw [hts, Forest.spanOf_append]
    exact ⟨_, rfl, decl_yields (by simp) ((hI.valueSpecs hs).group.skip t)⟩
  · obtain ⟨us, rfl, hus⟩ := ValueSpec.read_yields hI.exprs hP kind hs
    rw [← List.cons_append, Forest.spanOf_append]
    exact ⟨t :: us, rfl, decl_yields (by simp) (hus.has.skip t)⟩

/-! ## Types and imports -/

/-- A phrase that is kept as a whole, from its first tree and those read after it. -/
theorem Phrase.opaquely_takes (kind : ItemKind) (t : Tree) (us : Forest) {rest : Forest} :
    ∃ vs, t :: (us ++ rest) = vs ++ rest ∧
      Yields src ((Phrase.opaquely kind (t :: (us ++ rest)) rest).part src P) vs := by
  refine ⟨t :: us, rfl, ?_⟩
  rw [← List.cons_append]
  exact Phrase.opaquely_yields kind (by simp)

theorem readTypeSpec_takes (I : Interior) : Reader.Takes (readTypeSpec I) fun _ _ => True := by
  intro ts a rest h
  -- What follows the name is the type, perhaps behind `=`, which is then skipped.
  have hskip : ∀ (ts : Forest) {ts' : Forest}, ts' = ts ∨ ts' = ts.tail →
      (TypeExpr.read I true ts').map (fun p => ((), p.2)) = some (a, rest) →
      ∃ us, ts = us ++ rest := by
    intro ts ts' htail h
    obtain ⟨⟨type, rest'⟩, ht, he⟩ := Option.map_eq_some_iff.1 h
    cases he
    obtain ⟨us, rfl, -⟩ := TypeExpr.read_made I true ht
    rcases htail with rfl | htail
    · exact ⟨us, rfl⟩
    · cases ts with
      | nil => exact ⟨us, htail.symm⟩
      | cons eq ts => exact ⟨eq :: us, by rw [List.cons_append, htail]; rfl⟩
  unfold readTypeSpec at h
  dsimp only at h
  split at h
  · rename_i x ts
    split at h
    · cases h
    · rcases (Option.orElse_eq_some _ _ _).1 h with h | ⟨-, h⟩
      · obtain ⟨us, rfl⟩ := hskip ts (by split <;> grind) h
        exact ⟨x :: us, rfl, trivial⟩
      · split at h
        · rename_i behind _
          split at h
          · obtain ⟨us, rfl⟩ := hskip behind (by split <;> grind) h
            exact ⟨x :: _ :: us, rfl, trivial⟩
          · cases h
        · cases h
  · cases h

theorem readTypeDecl_yields (I : Interior) :
    Reader.Takes (readTypeDecl I) fun p us => Yields src (p.part src P) us := by
  intro ts p rest h
  cases ts with
  | nil => cases h
  | cons t ts =>
    unfold readTypeDecl at h
    dsimp only [Forest, List.tail_cons] at h
    split at h
    · split at h
      · cases h
        exact Phrase.opaquely_takes .typeDecl t [_]
      · cases h
    · obtain ⟨⟨a, rest'⟩, hs, he⟩ := Option.map_eq_some_iff.1 h
      cases he
      obtain ⟨us, rfl, -⟩ := readTypeSpec_takes I hs
      exact Phrase.opaquely_takes .typeDecl t us

theorem readImportSpec_takes : Reader.Takes readImportSpec fun _ _ => True := by
  intro ts a rest h
  unfold readImportSpec at h
  split at h
  · cases h
  · rename_i t ts
    split at h
    · cases h
      exact ⟨[t], rfl, trivial⟩
    · split at h
      · split at h
        · rename_i path rest'
          split at h
          · cases h
            exact ⟨[t, path], rfl, trivial⟩
          · cases h
        · cases h
      · cases h

theorem readImport_yields (I : Interior) :
    Reader.Takes (readImport I) fun p us => Yields src (p.part src P) us := by
  intro ts p rest h
  cases ts with
  | nil => cases h
  | cons t ts =>
    unfold readImport at h
    dsimp only [Forest, List.tail_cons] at h
    split at h
    · split at h
      · cases h
        exact Phrase.opaquely_takes .importDecl t [_]
      · cases h
    · obtain ⟨⟨a, rest'⟩, hs, he⟩ := Option.map_eq_some_iff.1 h
      cases he
      obtain ⟨us, rfl, -⟩ := readImportSpec_takes hs
      exact Phrase.opaquely_takes .importDecl t us

end Recast
