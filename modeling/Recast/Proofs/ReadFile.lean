import Recast.Grammar.File
import Recast.Proofs.Placing
import Recast.Proofs.ReadStmt

/-!
# Reading files

The parts that the readers of functions and items find (`readItem_yields`), with the knot of the
readers for brackets tied (`Interior.findsParts_ofDepth`). A file that is read from a source text is
sound in it (`File.read_sound`), whatever follows of its expressions from the trees that they are
made of.
-/

namespace Recast

open Forest (hull Along Yields Has)

variable {src : Source} {P : Expr → Prop} {I : Interior}

/-! ## Depth -/

namespace Interior

theorem findsParts_none : Interior.none.FindsParts src P where
  exprs := makesExprs_none
  params h := by cases h
  block h := by cases h
  valueSpecs h := by cases h

theorem FindsParts.deepen (h : I.FindsParts src P) (hP : Expr.Follows src P) :
    I.deepen.FindsParts src P where
  exprs := h.exprs.deepen
  params := Param.readAll_has I
  block := readStmts_has h hP
  valueSpecs := ValueSpec.readGroup_has h.exprs hP

theorem findsParts_ofDepth (hP : Expr.Follows src P) (n : Nat) :
    (Interior.ofDepth n).FindsParts src P := by
  induction n with
  | zero => exact findsParts_none
  | succ n ih => exact ih.deepen hP

end Interior

/-! ## Functions -/

def FieldList.part (src : Source) (fs : FieldList) : Part := (fs.span, fs.Sound src)

def Func.part (src : Source) (P : Expr → Prop) (f : Func) : Part := (f.span, f.Sound src P)

def Item.part (src : Source) (P : Expr → Prop) (i : Item) : Part := (i.span, i.Sound src P)

theorem FieldList.yields {fs : List Field} {us : Forest} (hu : us ≠ [])
    (h : Has src (fs.map (Field.part src)) us) :
    Yields src (FieldList.part src ⟨fs, hull us⟩) us := by
  refine h.yields hu fun hs hp => ⟨?_, Part.forall_mem_of_map hp⟩
  rwa [List.map_map] at hs

theorem params_yields (hI : I.FindsParts src P) {gap closing : Gap} {inner : Forest} {span : Span}
    {fs : List Field} (h : I.params inner = some fs) :
    Yields src (FieldList.part src ⟨fs, span⟩) [.group .paren gap inner closing span] :=
  FieldList.yields (by simp) (hI.params h).group

theorem readResults_has (hI : I.FindsParts src P) {ts rest : Forest} {results : Option FieldList}
    (h : readResults I ts = some (results, rest)) :
    ∃ us, ts = us ++ rest ∧ Has src (results.toList.map (FieldList.part src)) us := by
  unfold readResults at h
  split at h
  · cases h
    exact ⟨[], rfl, .nil⟩
  · split at h
    · cases h
      exact ⟨[], rfl, .nil⟩
    · obtain ⟨fs, hf, he⟩ := Option.map_eq_some_iff.1 h
      cases he
      exact ⟨[_], rfl, (params_yields hI hf).has⟩
  · split at h
    · obtain ⟨⟨type, rest₁⟩, ht, he⟩ := Option.map_eq_some_iff.1 h
      cases he
      obtain ⟨us, hus, hm⟩ := TypeExpr.read_made I true ht
      have hf : Yields src (Field.part src ⟨[], type, type.span⟩) us :=
        Field.yields hm.ne_nil hm.span_eq .nil hm.yields.has
      have hl : Yields src (FieldList.part src ⟨[⟨[], type, type.span⟩], hull us⟩) us :=
        FieldList.yields hm.ne_nil hf.has
      rw [← hm.span_eq] at hl
      exact ⟨us, hus, hl.has⟩
    · cases h
      exact ⟨[], rfl, .nil⟩

theorem readBody_has (hI : I.FindsParts src P) {ts rest : Forest} {body : Option Block}
    (h : readBody I ts = some (body, rest)) :
    ∃ us, ts = us ++ rest ∧ Has src (body.toList.map (Block.part src P)) us := by
  rcases readBody_eq_some h with ⟨rfl, rfl⟩ | ⟨b, rfl, hb⟩
  · exact ⟨[], rfl, .nil⟩
  · obtain ⟨us, hus, hy⟩ := readBlock_yields hI hb
    exact ⟨us, hus, hy.has⟩

theorem readSignature_has (hI : I.FindsParts src P) {ts rest : Forest} {params : FieldList}
    {results : Option FieldList} {body : Option Block}
    (h : readSignature I ts = some ((params, results, body), rest)) :
    ∃ us, ts = us ++ rest ∧ us ≠ [] ∧
      Has src (params.part src :: (results.toList.map (FieldList.part src)
        ++ body.toList.map (Block.part src P))) us := by
  obtain ⟨gap, inner, closing, rest₀, rest₁, rfl, hf, hr, hb⟩ := readSignature_eq_some h
  obtain ⟨us, rfl, hus⟩ := readResults_has hI hr
  obtain ⟨vs, rfl, hvs⟩ := readBody_has hI hb
  refine ⟨.group .paren gap inner closing params.span :: (us ++ vs), by simp, by simp, ?_⟩
  exact (params_yields hI hf).has.append (hus.append hvs)

theorem Func.yields {name : Ident} {params : FieldList} {results : Option FieldList}
    {body : Option Block} {us : Forest} (hu : us ≠ [])
    (h : Has src (name.part src :: params.part src :: (results.toList.map (FieldList.part src)
      ++ body.toList.map (Block.part src P))) us) :
    Yields src (Func.part src P ⟨name, params, results, body, hull us⟩) us := by
  refine h.yields hu fun hs hp => ?_
  obtain ⟨hname, hp⟩ := List.forall_mem_cons.1 hp
  obtain ⟨hparams, hp⟩ := List.forall_mem_cons.1 hp
  obtain ⟨hresults, hbody⟩ := List.forall_mem_append.1 hp
  refine ⟨?_, hname, hparams, fun fs hf => ?_, fun b hb => ?_⟩
  · simpa [Func.parts, Function.comp_def, Ident.part, FieldList.part, Block.part] using hs
  · exact hresults _ (List.mem_map_of_mem (Option.mem_toList.2 hf))
  · exact hbody _ (List.mem_map_of_mem (Option.mem_toList.2 hb))

theorem readFunc_yields (hI : I.FindsParts src P) :
    Reader.Takes (readFunc I) fun f us => Yields src (f.part src P) us := by
  intro ts f rest h
  obtain ⟨t, u, skipped, rest₁, rfl, hname, hs, hspan⟩ := readFunc_eq_some h
  obtain ⟨us, rfl, -, hus⟩ := readSignature_has hI hs
  have hall : t :: u :: (skipped ++ (us ++ rest)) = t :: u :: (skipped ++ us) ++ rest := by simp
  rw [hall, Forest.spanOf_append] at hspan
  have hu : Has src [f.name.part src] [u] := (Tree.ident?_yields hname).has
  obtain ⟨name, params, results, body, span⟩ := f
  obtain rfl : span = _ := hspan
  rw [hall]
  exact ⟨_, rfl, Func.yields (by simp) ((hu.append (hus.skips skipped)).skip t)⟩

theorem readMethod_yields (hI : I.FindsParts src P) :
    Reader.Takes (readMethod I) fun i us => Yields src (i.part src P) us := by
  intro ts i rest h
  cases ts with
  | nil => cases h
  | cons t ts =>
    unfold readMethod at h
    dsimp only [List.tail_cons] at h
    split at h
    · rename_i gap receiver closing span name rest₁
      obtain ⟨fs, -, h⟩ := Option.bind_eq_some_iff.1 h
      obtain ⟨w, -, h⟩ := Option.bind_eq_some_iff.1 h
      obtain ⟨⟨⟨params, results, body⟩, rest₂⟩, hs, h⟩ := Option.bind_eq_some_iff.1 h
      cases h
      obtain ⟨us, rfl, -, -⟩ := readSignature_has hI hs
      have hall : t :: .group .paren gap receiver closing span :: name :: (us ++ rest₂)
          = t :: .group .paren gap receiver closing span :: name :: us ++ rest₂ := rfl
      rw [hall, Forest.spanOf_append]
      exact ⟨_, rfl, by simp, rfl, fun hp => hp.covers_hull (by simp)⟩
    · cases h

theorem readPackage_yields :
    Reader.Takes readPackage fun i us => Yields src (i.part src P) us := by
  intro ts i rest h
  cases ts with
  | nil => cases h
  | cons t ts =>
    unfold readPackage at h
    dsimp only [List.tail_cons] at h
    split at h
    · rename_i name rest₁
      split at h
      · cases h
        have hall : t :: name :: rest = [t, name] ++ rest := rfl
        rw [hall, Forest.spanOf_append]
        exact ⟨[t, name], rfl, by simp, rfl, fun hp => hp.covers_hull (by simp)⟩
      · cases h
    · cases h

theorem Phrase.toItem_yields {p : Phrase} {us : Forest} (h : Yields src (p.part src P) us) :
    Yields src (p.toItem.part src P) us :=
  ⟨h.ne_nil, h.span_eq, fun hp => (h.sound hp).covers⟩

theorem readItem_yields (hI : I.FindsParts src P) (hP : Expr.Follows src P) :
    Reader.Takes (readItem I) fun i us => Yields src (i.part src P) us := by
  intro ts i rest h
  have hphrase : ∀ {r : Reader Phrase}, r.Takes (fun p us => Yields src (p.part src P) us) →
      (r ts).map (fun q => (q.1.toItem, q.2)) = some (i, rest) →
      ∃ us, ts = us ++ rest ∧ Yields src (i.part src P) us := by
    intro r ht h
    obtain ⟨⟨p, rest₁⟩, hr, he⟩ := Option.map_eq_some_iff.1 h
    cases he
    obtain ⟨us, hus, hy⟩ := ht hr
    exact ⟨us, hus, Phrase.toItem_yields hy⟩
  unfold readItem at h
  dsimp only at h
  split at h
  · cases h
  · split at h
    · exact readPackage_yields h
    · exact hphrase (readImport_yields I) h
    · split at h
      · split at h
        · exact readMethod_yields hI h
        · exact hphrase (readStmt_yields hI hP) h
      · exact hphrase (readStmt_yields hI hP) h
      · obtain ⟨⟨f, rest₁⟩, hf, he⟩ := Option.map_eq_some_iff.1 h
        cases he
        obtain ⟨us, hus, hy⟩ := readFunc_yields hI hf
        exact ⟨us, hus, hy⟩
    · exact hphrase (readStmt_yields hI hP) h

/-! ## Files -/

namespace File

theorem readItems_has (hP : Expr.Follows src P) {ts : Forest} {items : List Item}
    (h : readItems ts = .ok items) : Has src (items.map (Item.part src P)) ts := by
  obtain ⟨rest, hl⟩ := readItems_listed h
  have hI := Interior.findsParts_ofDepth hP (Tree.depthList ts)
  obtain ⟨us, hus, ha⟩ := Reader.Takes.listed (readItem_yields hI hP) hl
  rw [hus]
  exact (ha.has fun _ _ hi => hi).more rest

/-- A source is read in four stages: its size, its pieces, its trees, its items. -/
theorem read_eq_ok_iff {file : File} :
    read src = .ok file ↔ src.size < Span.limit ∧ ∃ ps ts items,
      Piece.ofChars src.chars = .ok ps ∧ Forest.ofLexemes (Lexeme.ofPieces 0 .none ps) = .ok ts ∧
      readItems ts = .ok items ∧ ⟨items, ⟨firstOffset 0 ps, src.size⟩⟩ = file := by
  constructor
  · intro h
    unfold read at h
    split at h
    · cases h
    · rename_i hsize
      refine ⟨Nat.lt_of_not_ge hsize, ?_⟩
      split at h
      · cases h
      · rename_i ps hps
        split at h
        · cases h
        · rename_i ts hts
          split at h
          · rename_i items hitems
            exact ⟨ps, ts, items, hps, hts, hitems, Except.ok.inj h⟩
          · cases h
  · rintro ⟨hsize, ps, ts, items, hps, hts, hitems, rfl⟩
    rw [read, if_neg (Nat.not_le_of_lt hsize), hps]
    simp only [hts, hitems]

/-- The spans of a file that is read are sound, and what follows of expressions from the trees that
they are made of holds of all its expressions. -/
theorem read_sound (hP : Expr.Follows src P) {file : File} (h : read src = .ok file) :
    file.Sound src P := by
  obtain ⟨-, ps, ts, items, hps, hts, hitems, rfl⟩ := read_eq_ok_iff.1 h
  have hp := Forest.ofLexemes_placed hps hts
  have hfirst := (Forest.ofLexemes_spread hts).firstOffset_le
  have hhas := readItems_has hP hitems
  have hs : src.chars = [] ++ ps.flatMap Piece.text := (Piece.makeUp_of_ofChars hps).join.symm
  have hb : src.Boundary (firstOffset 0 ps) := Lexeme.boundary_firstOffset hs
  have hholds : Span.Holds ⟨firstOffset 0 ps, src.size⟩ _ :=
    hhas.carries.within hp fun t ht => ⟨hfirst t ht, (hp.trees t ht).covers.within⟩
  rw [List.map_map] at hholds
  exact ⟨⟨hb.le_size, Nat.le_refl _, hb, src.boundary_size⟩, hholds,
    Part.forall_mem_of_map (hhas.sound hp)⟩

end File

end Recast
