import Recast.Proofs.Orders
import Recast.Proofs.Written

/-!
# The names of a file

All names in the tree of a file that is read are words of its text, but for the commas among the
names of a `const` (`File.idents_written`). So the names are those written just if no `const` lists
more than one (`File.names_kept_iff`).
-/

namespace Recast

open Forest (Placed)

/-! ## The names of a tree -/

def Field.idents (f : Field) : List Ident := f.names ++ f.type.ident?.toList

def FieldList.idents (fs : FieldList) : List Ident := fs.fields.flatMap Field.idents

/-- The names before the body of a function: its own, and those of its parameters and its
results. -/
def Func.heading (f : Func) : List Ident :=
  f.name :: (f.params.idents ++ f.results.elim [] FieldList.idents)

def ValueSpec.idents (spec : ValueSpec) : List Ident :=
  spec.names ++ (spec.type.bind TypeExpr.ident?).toList

/-- The name that an expression has besides those of its operands. -/
def Expr.ident? : Expr → Option Ident
  | .name x => some x
  | .selector _ field _ => some field
  | .literal .. | .binary .. | .unary .. | .paren .. | .call .. | .unsupported _ => none

def Expr.idents (e : Expr) : List Ident := e.parts.filterMap Expr.ident?

/-- All names in the tree of a file. -/
def File.idents (file : File) : List Ident :=
  file.funcs.flatMap Func.heading ++ file.specs.flatMap (fun (_, spec) => spec.idents)
    ++ file.exprs.flatMap Expr.idents

/-! ## Names that are written -/

variable {src : Source}

theorem Expr.MadeOf.written {e : Expr} {us : Forest} (h : e.MadeOf us) (hp : Placed src us) :
    ∀ x ∈ e.ident?, x.Written src := by
  cases h with
  | name =>
    intro x hx
    cases hx
    exact ⟨_, hp.head.lexeme⟩
  | selector =>
    intro x hx
    cases hx
    exact ⟨_, hp.right.tail.head.lexeme⟩
  | literal | binary | unary | receive | paren | call | unsupported =>
    intro x hx
    cases hx

theorem Field.Written.idents {f : Field} (h : f.Written src) : ∀ x ∈ f.idents, x.Written src :=
  List.forall_mem_append.2 ⟨h.names, fun x hx => h.type x (Option.mem_toList.1 hx)⟩

theorem FieldList.idents_written {fs : FieldList} (h : ∀ f ∈ fs.fields, f.Written src) :
    ∀ x ∈ fs.idents, x.Written src := by
  intro x hx
  obtain ⟨f, hf, hx⟩ := List.mem_flatMap.1 hx
  exact (h f hf).idents x hx

theorem Func.Written.heading {f : Func} (h : f.Written src) : ∀ x ∈ f.heading, x.Written src := by
  have hresults : ∀ x ∈ f.results.elim [] FieldList.idents, x.Written src := by
    cases hr : f.results with
    | none => exact List.forall_mem_nil _
    | some fs => exact FieldList.idents_written (h.results fs hr)
  exact List.forall_mem_cons.2 ⟨h.name,
    List.forall_mem_append.2 ⟨FieldList.idents_written h.params, hresults⟩⟩

/-- A comma among the names of a `const` of a file. -/
def File.Separates (file : File) (x : Ident) : Prop :=
  x.name = "," ∧ ∃ spec, (.const, spec) ∈ file.specs ∧ x ∈ spec.names

theorem ValueSpec.Written.idents {file : File} {kind : DeclKind} {spec : ValueSpec}
    (h : spec.Written src kind) (hmem : (kind, spec) ∈ file.specs) :
    ∀ x ∈ spec.idents, x.Written src ∨ file.Separates x := by
  intro x hx
  rcases List.mem_append.1 hx with hx | hx
  · rcases h.words x hx with hw | ⟨rfl, hcomma⟩
    · exact .inl hw
    · exact .inr ⟨hcomma, spec, hmem, hx⟩
  · obtain ⟨type, ht, hx⟩ := Option.bind_eq_some_iff.1 (Option.mem_toList.1 hx)
    exact .inl (h.type type ht x hx)

theorem File.idents_written {file : File} (h : read src = .ok file) :
    ∀ x ∈ file.idents, x.Written src ∨ file.Separates x := by
  intro x hx
  rcases List.mem_append.1 hx with hx | hx
  · rcases List.mem_append.1 hx with hx | hx
    · obtain ⟨f, hf, hx⟩ := List.mem_flatMap.1 hx
      exact .inl ((funcs_written h f hf).heading x hx)
    · obtain ⟨⟨kind, spec⟩, hspec, hx⟩ := List.mem_flatMap.1 hx
      exact (specs_written h _ hspec).idents hspec x hx
  · obtain ⟨e, he, hx⟩ := List.mem_flatMap.1 hx
    obtain ⟨p, hp, hx⟩ := List.mem_filterMap.1 hx
    obtain ⟨us, hus, hm⟩ := madeOf_of_read h he hp
    exact .inl (hm.written hus x hx)

/-! ## The names of a specification -/

namespace ValueSpec

variable {kind : DeclKind} {spec : ValueSpec} {xs : List String}

/-- The names that are listed in the text of a specification. -/
def listed (src : Source) (spec : ValueSpec) : List String :=
  ((src.slice? spec.span).bind fun t => (Piece.scan t.toList).toOption).elim [] fun ps =>
    listedNames (Lexeme.kinds ps)

theorem Written.namedAs (h : spec.Written src kind) : spec.NamedAs kind (spec.listed src) := by
  obtain ⟨t, ps, hslice, hscan, hnamed⟩ := h.named
  rwa [listed, hslice, Option.bind_some, hscan]

namespace NamedAs

/-- With `n` names a `const` has the `n - 1` commas besides. -/
theorem length_eq (h : spec.NamedAs kind xs) :
    spec.names.length = match kind with
      | .var => xs.length
      | .const => 2 * xs.length - 1 := by
  rw [← List.length_map Ident.name, h.eq]
  cases kind with
  | var => rfl
  | const => exact List.length_intersperse

/-- So its names are those listed if there is only one. -/
theorem names_eq_iff (h : spec.NamedAs kind xs) :
    spec.names.map Ident.name = xs ↔ (kind = .const → xs.length = 1) := by
  have hpos := List.length_pos_iff.2 h.ne_nil
  have hlength := h.length_eq
  cases kind with
  | var => simp [h.eq]
  | const =>
    dsimp only at hlength
    constructor
    · intro heq _
      rw [← heq, List.length_map] at hpos ⊢
      rw [← heq, List.length_map] at hlength
      omega
    · intro hone
      obtain ⟨x, rfl⟩ := List.length_eq_one_iff.1 (hone rfl)
      exact h.eq

end NamedAs

end ValueSpec

namespace File

/-- **Names are those written.** The names in the tree of a file are identifiers that stand at their
places in the text, but for the commas among the names of a `const`. The names of a specification
are those listed in its text, those of a `const` with the commas between them; so all are as they
are written just if no `const` lists more than one. -/
theorem names_kept_iff {file : File} (hread : read src = .ok file) :
    (∀ x ∈ file.idents, isName x.name.toList = true ∧ src.slice? x.span = some x.name ∨
        file.Separates x) ∧
      (∀ spec ∈ file.specs, spec.2.NamedAs spec.1 (spec.2.listed src)) ∧
      ((∀ x ∈ file.idents, isName x.name.toList = true) ∧
          (∀ spec ∈ file.specs, spec.2.names.map Ident.name = spec.2.listed src) ↔
        ∀ spec ∈ file.specs, spec.1 = .const → (spec.2.listed src).length = 1) := by
  have hidents : ∀ x ∈ file.idents,
      isName x.name.toList = true ∧ src.slice? x.span = some x.name ∨ file.Separates x :=
    fun x hx => (idents_written hread x hx).imp_left fun h => ⟨h.isName, h.slice⟩
  have hspecs : ∀ spec ∈ file.specs, spec.2.NamedAs spec.1 (spec.2.listed src) :=
    fun spec hspec => (specs_written hread spec hspec).namedAs
  refine ⟨hidents, hspecs, fun h spec hspec => ?_, fun h => ?_⟩
  · exact (hspecs spec hspec).names_eq_iff.1 (h.2 spec hspec)
  · have hkept : ∀ spec ∈ file.specs, spec.2.names.map Ident.name = spec.2.listed src :=
      fun spec hspec => (hspecs spec hspec).names_eq_iff.2 (h spec hspec)
    refine ⟨fun x hx => ?_, hkept⟩
    -- A comma would be among the names that are listed.
    rcases hidents x hx with ⟨hx, -⟩ | ⟨-, spec, hspec, hx⟩
    · exact hx
    · have hmem := List.mem_map_of_mem (f := Ident.name) hx
      exact (hspecs _ hspec).names _ (hkept _ hspec ▸ hmem)

/-- A text with names in all places. -/
def manyNames : Source :=
  ⟨"func f(a, b int) (c bool) \x7b\n\tvar d, e int = 1, 2\n\tconst g = 3\n\treturn a.h\n\x7d\n"⟩

theorem names_kept_iff_manyNames :
    ∃ file, read manyNames = .ok file ∧
      file.idents.map Ident.name =
        ["f", "a", "b", "int", "c", "bool", "d", "e", "int", "g", "h", "a"] ∧
      file.specs.map (fun spec => spec.2.listed manyNames) = [["d", "e"], ["g"]] ∧
      (∀ x ∈ file.idents, isName x.name.toList = true ∧ manyNames.slice? x.span = some x.name ∨
        file.Separates x) ∧
      (∀ spec ∈ file.specs, spec.2.NamedAs spec.1 (spec.2.listed manyNames)) ∧
      ((∀ x ∈ file.idents, isName x.name.toList = true) ∧
          (∀ spec ∈ file.specs, spec.2.names.map Ident.name = spec.2.listed manyNames) ↔
        ∀ spec ∈ file.specs, spec.1 = .const → (spec.2.listed manyNames).length = 1) := by
  have hall : (read manyNames).toOption.map (fun file =>
      (file.idents.map Ident.name, file.specs.map fun spec => spec.2.listed manyNames)) = some
        (["f", "a", "b", "int", "c", "bool", "d", "e", "int", "g", "h", "a"],
          [["d", "e"], ["g"]]) := by decide +kernel
  obtain ⟨file, hread, he⟩ := Option.map_eq_some_iff.1 hall
  have hread := eq_ok_of_toOption hread
  obtain ⟨hidents, hspecs⟩ := Prod.mk.inj he
  exact ⟨file, hread, hidents, hspecs, names_kept_iff hread⟩

/-- Two constants in one specification. -/
def twoConstants : Source := ⟨"func f() \x7b\n\tconst a, b = 1, 2\n\x7d\n"⟩

/-- The comma between two constants is a name of its own, which is no identifier. -/
theorem comma_among_names :
    ∃ file spec, read twoConstants = .ok file ∧ (.const, spec) ∈ file.specs ∧
      spec.listed twoConstants = ["a", "b"] ∧ spec.names.map Ident.name = ["a", ",", "b"] ∧
      ¬ ((∀ x ∈ file.idents, isName x.name.toList = true) ∧
        ∀ spec ∈ file.specs, spec.2.names.map Ident.name = spec.2.listed twoConstants) := by
  have hspecs : (read twoConstants).toOption.map (fun file => file.specs.map fun spec =>
      (spec.1, spec.2.listed twoConstants, spec.2.names.map Ident.name)) = some
        [(.const, ["a", "b"], ["a", ",", "b"])] := by decide +kernel
  obtain ⟨file, hread, he⟩ := Option.map_eq_some_iff.1 hspecs
  obtain ⟨⟨kind, spec⟩, hfile, he⟩ := List.map_eq_singleton_iff.1 he
  simp only [Prod.mk.injEq] at he
  obtain ⟨rfl, hlisted, hnames⟩ := he
  have hmem : (.const, spec) ∈ file.specs := hfile ▸ List.mem_singleton_self _
  refine ⟨file, spec, eq_ok_of_toOption hread, hmem, hlisted, hnames, fun ⟨_, h⟩ => ?_⟩
  have hkept := h _ hmem
  rw [hlisted, hnames] at hkept
  exact absurd hkept (by decide)

end File

end Recast
