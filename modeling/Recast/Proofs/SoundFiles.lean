import Recast.Proofs.Faults
import Recast.Proofs.Orders
import Recast.Proofs.ReadFile

/-!
# The spans of a file are sound

A file that is read from a source text has sound spans, down to its expressions
(`File.sound_of_read`), so no lowering of it meets a span that does not cut the text
(`File.spans_sound`).
-/

namespace Recast

open Forest (Along Yields)

variable {src : Source}

/-! ## Expressions -/

namespace Expr

mutual

/-- An expression is sound where the trees that it is made of are placed. -/
theorem MadeOf.sound_yields :
    ∀ {e : Expr} {us : Forest}, e.MadeOf us → Yields src (e.part (Expr.Sound src)) us
  | .literal t span, us, h => by
    cases h with
    | literal => exact ⟨by simp, rfl, fun hp =>
        .literal hp.head.lexeme.slice_literal hp.head.covers.nonempty⟩
  | .name x, us, h => by
    cases h with
    | @name _ gap => exact ⟨by simp, rfl, fun hp => .name (Tree.word_yields.sound hp)⟩
  | .binary op l r span, us, h => by
    cases h with
    | @binary _ _ _ ls os rs hl ho hr =>
      have hparts := (hl.sound_yields.has.more os).append hr.sound_yields.has
      refine hparts.yields (by simp [hl.ne_nil]) fun hs hp => ?_
      exact .binary hs (hp _ List.mem_cons_self) (hp _ (List.mem_cons_of_mem _ List.mem_cons_self))
  | .unary op e span, us, h => by
    cases h with
    | unary ho he =>
      refine (he.sound_yields.has.skip _).yields (by simp) fun hs hp => ?_
      exact .unary hs (hp _ List.mem_cons_self)
    | receive he =>
      refine ((he.sound_yields.has.skip _).skip _).yields (by simp) fun hs hp => ?_
      exact .unary hs (hp _ List.mem_cons_self)
  | .paren e span, us, h => by
    cases h with
    | paren he =>
      refine he.sound_yields.has.group.yields (by simp) fun hs hp => ?_
      exact .paren hs (hp _ List.mem_cons_self)
  | .selector e x span, us, h => by
    cases h with
    | @selector _ w dot gap place vs he =>
      have hx : Yields src (Ident.part src ⟨w, place⟩) [.leaf ⟨.word w, gap, place⟩] :=
        Tree.word_yields
      refine (he.sound_yields.has.append (hx.has.skip dot)).yields (by simp) fun hs hp => ?_
      exact .selector hs (hp _ List.mem_cons_self)
        (hp _ (List.mem_cons_of_mem _ List.mem_cons_self))
  | .call callee args span, us, h => by
    cases h with
    | @call _ _ vs skipped inner gap closing place hf ha =>
      have hargs : Forest.Has src (args.map (Expr.part (Expr.Sound src)))
          [.group .paren gap inner closing place] := (Along.sound_has ha).group
      have hparts := (hf.sound_yields.has.more skipped).append hargs
      refine hparts.yields (by simp) fun hs hp => ?_
      obtain ⟨hf, ha⟩ := List.forall_mem_cons.1 hp
      rw [List.map_append, List.map_map] at hs
      exact .call hs hf (Part.forall_mem_of_map ha)
  | .unsupported span, us, h => by
    cases h with
    | unsupported hu => exact ⟨hu, rfl, fun hp => .unsupported (hp.covers_hull hu)⟩

theorem Along.sound_has :
    ∀ {es : List Expr} {us : Forest}, Along MadeOf es us →
      Forest.Has src (es.map (Expr.part (Expr.Sound src))) us
  | [], us, _ => .nil
  | e :: es, us, h => by
    cases h with
    | @cons _ _ vs ts skipped he hes =>
      rw [List.append_assoc]
      exact (he.sound_yields.has.append (Along.sound_has hes)).skips skipped

end

theorem sound_follows (src : Source) : Expr.Follows src (Expr.Sound src) :=
  fun h hp => h.sound_yields.sound hp

mutual

/-- The parts of an expression are made of trees too, and these are placed as all are. -/
theorem MadeOf.parts_madeOf :
    ∀ {e : Expr} {us : Forest}, e.MadeOf us → Forest.Placed src us →
      ∀ p ∈ e.parts, ∃ vs, Forest.Placed src vs ∧ p.MadeOf vs
  | .literal .., us, h, hp | .name _, us, h, hp | .unsupported _, us, h, hp =>
    List.forall_mem_singleton.2 ⟨us, hp, h⟩
  | .binary op l r span, us, h, hp => by
    refine List.forall_mem_cons.2 ⟨⟨us, hp, h⟩, List.forall_mem_append.2 ?_⟩
    cases h with
    | binary hl ho hr =>
      exact ⟨hl.parts_madeOf hp.left.left, hr.parts_madeOf hp.right⟩
  | .unary op e span, us, h, hp => by
    refine List.forall_mem_cons.2 ⟨⟨us, hp, h⟩, ?_⟩
    cases h with
    | unary ho he => exact he.parts_madeOf hp.tail
    | receive he => exact he.parts_madeOf hp.tail.tail
  | .paren e span, us, h, hp => by
    refine List.forall_mem_cons.2 ⟨⟨us, hp, h⟩, ?_⟩
    cases h with
    | paren he => exact he.parts_madeOf hp.head.inner
  | .selector e x span, us, h, hp => by
    refine List.forall_mem_cons.2 ⟨⟨us, hp, h⟩, ?_⟩
    cases h with
    | selector he => exact he.parts_madeOf hp.left
  | .call callee args span, us, h, hp => by
    refine List.forall_mem_cons.2 ⟨⟨us, hp, h⟩, List.forall_mem_append.2 ?_⟩
    cases h with
    | call hf ha => exact ⟨hf.parts_madeOf hp.left.left, Along.parts_madeOf ha hp.right.head.inner⟩

theorem Along.parts_madeOf :
    ∀ {es : List Expr} {us : Forest}, Along MadeOf es us → Forest.Placed src us →
      ∀ p ∈ Expr.partsList es, ∃ vs, Forest.Placed src vs ∧ p.MadeOf vs
  | [], us, _, _ => by simp [Expr.partsList]
  | e :: es, us, h, hp => by
    cases h with
    | cons skipped he hes =>
      exact List.forall_mem_append.2
        ⟨he.parts_madeOf hp.left.right, Along.parts_madeOf hes hp.right⟩

end

end Expr

/-! ## Conversions -/

namespace Conversion

/-- The function that a failed conversion names is the first of the file that cannot be lowered, and
the fault is that of lowering it. -/
theorem first_of_lowering_error {options : ConversionOptions} {name : String} {fault : Fault}
    (h : ofSource src options = .error (.lowering name fault)) :
    ∃ file before f after, File.read src = .ok file ∧ file.funcs = before ++ f :: after ∧
      (∀ g ∈ before, ∃ l, g.lower src options.policy = .ok l) ∧
      f.lower src options.policy = .error fault ∧ name = f.name.name := by
  unfold ofSource ofSourceOn at h
  split at h
  · cases h
  · rename_i file hread
    rcases mapM_entry_cases src options.policy file.funcs with
      ⟨es, hes, -⟩ | ⟨before, f, after, fault', hfuncs, hbefore, hf, herror⟩
    · rw [ofFile_ok hes] at h
      cases h
    · rw [ofFile_error herror] at h
      cases h
      exact ⟨file, before, f, after, hread, hfuncs, hbefore, hf, rfl⟩

end Conversion

/-! ## Files -/

namespace File

theorem sound_of_read {file : File} (h : read src = .ok file) : file.Sound src (Expr.Sound src) :=
  read_sound (Expr.sound_follows src) h

/-- The expressions of a file that is read, and all that are in them, are made of trees of the
source. -/
theorem madeOf_of_read {file : File} (h : read src = .ok file) {e p : Expr} (he : e ∈ file.exprs)
    (hp : p ∈ e.parts) : ∃ us, Forest.Placed src us ∧ p.MadeOf us := by
  have hfollows : Expr.Follows src fun e => ∃ us, Forest.Placed src us ∧ e.MadeOf us :=
    fun h hp => ⟨_, hp, h⟩
  obtain ⟨us, hplaced, hmade⟩ := (read_sound hfollows h).forall_mem_exprs e he
  exact hmade.parts_madeOf hplaced p hp

/-- The functions of a file that is read fail inside themselves, if they fail. -/
theorem lower_error_of_read {file : File} (h : read src = .ok file) {f : Func}
    (hf : f ∈ file.funcs) {policy : ScopePolicy} {fault : Fault}
    (he : f.lower src policy = .error fault) : fault.PointsInto src f.span :=
  Func.lower_error ((sound_of_read h).funcs f hf) he

/-- The spans of a file are sound, names and literals are the text at their spans, and neither
lowering one of its functions nor a conversion of its source meets a span that does not cut the
text. -/
theorem spans_sound {file : File} (h : read src = .ok file) :
    file.Sound src (Expr.Sound src) ∧
      (∀ f ∈ file.funcs, ∀ policy span size, f.lower src policy ≠ .error (.unsliced span size)) ∧
      ∀ options name span size,
        Conversion.ofSource src options ≠ .error (.lowering name (.unsliced span size)) := by
  have hfuncs : ∀ f ∈ file.funcs, ∀ policy span size,
      f.lower src policy ≠ .error (.unsliced span size) := by
    intro f hf policy span size he
    obtain ⟨r, hr, -⟩ := lower_error_of_read h hf he
    cases hr
  refine ⟨sound_of_read h, hfuncs, fun options name span size hc => ?_⟩
  obtain ⟨file', before, f, after, hread, hf, -, he, -⟩ := Conversion.first_of_lowering_error hc
  cases h.symm.trans hread
  exact hfuncs f (by simp [hf]) _ _ _ he

/-- A text with letters of two bytes in a comment, in names and in a string. -/
def umlauts : Source :=
  ⟨"package p // ä\nfunc f(ä, b int) bool \x7b\n\tif ä & b == (1) \x7b return \"ö\" < f(b) \x7d\n\treturn true\n\x7d\n"⟩

theorem spans_sound_umlauts :
    ∃ file, read umlauts = .ok file ∧ file.funcs.length = 1 ∧
      file.Sound umlauts (Expr.Sound umlauts) ∧
      (∀ f ∈ file.funcs, ∀ policy span size,
        f.lower umlauts policy ≠ .error (.unsliced span size)) ∧
      ∀ options name span size,
        Conversion.ofSource umlauts options ≠ .error (.lowering name (.unsliced span size)) := by
  have hread : (read umlauts).toOption.map (fun file => file.funcs.length) = some 1 := by
    decide +kernel
  obtain ⟨file, hfile, hlength⟩ := Option.map_eq_some_iff.1 hread
  have hok := eq_ok_of_toOption hfile
  exact ⟨file, hok, hlength, spans_sound hok⟩

end File

end Recast
