import Recast.Proofs.Copied
import Recast.Proofs.ReadFile

/-!
# Specifications as they are written

What a specification of a `var` or a `const` is read from, as a judgement on trees that knows
nothing of reading: its names with commas between them, then its type and its values
(`ValueSpec.MadeOf`). A `const` has the commas among its names, a `var` has not, and has a type or
values besides. `Block.specs` lists the specifications of a block at every depth.
-/

namespace Recast

open Forest (hull Placed)

/-! ## The specifications of a tree -/

/-- A specification and the word that introduces it. -/
abbrev Spec := DeclKind × ValueSpec

mutual

/-- The specifications in a statement, in the order in which they are written. -/
def Stmt.specs : Stmt → List Spec
  | .decl kind specs _ => specs.map (kind, ·)
  | .cond init _ body other _ => Stmt.optionSpecs init ++ body.specs ++ Stmt.optionSpecs other
  | .loop init _ post body _ => Stmt.optionSpecs init ++ Stmt.optionSpecs post ++ body.specs
  | .block body => body.specs
  | .ret .. | .assign .. | .step .. | .unsupported _ => []
termination_by structural s => s

def Stmt.optionSpecs : Option Stmt → List Spec
  | none => []
  | some s => s.specs
termination_by structural s => s

def Stmt.listSpecs : List Stmt → List Spec
  | [] => []
  | s :: ss => s.specs ++ Stmt.listSpecs ss
termination_by structural ss => ss

/-- The specifications in a block, at every depth. -/
def Block.specs : Block → List Spec
  | .mk ss _ => Stmt.listSpecs ss
termination_by structural b => b

end

/-- The specifications in a function. -/
def Func.specs (f : Func) : List Spec := f.body.elim [] Block.specs

/-- The specifications in the functions of a file. -/
def File.specs (f : File) : List Spec := f.funcs.flatMap Func.specs

/-! ## Names with commas -/

/-- A comma that counts as a name. -/
def Ident.isComma (x : Ident) : Bool := x.name == ","

/-- Trees that are names with commas between them, the names, and the names with the commas. -/
inductive NameList : List Ident → List Ident → Forest → Prop
  | last {x : Ident} {gap : Gap} : NameList [x] [x] [.leaf ⟨.word x.name, gap, x.span⟩]
  | cons {x : Ident} {gap gap' : Gap} {span : Span} {xs ys : List Ident} {us : Forest}
      (h : NameList xs ys us) :
      NameList (x :: xs) (x :: ⟨",", span⟩ :: ys)
        (.leaf ⟨.word x.name, gap, x.span⟩ :: .leaf ⟨.mark .comma, gap', span⟩ :: us)

theorem readNames_nameList {line : Bool} {ts rest : Forest} {ys : List Ident}
    (h : readNames line ts = some (ys, rest)) :
    (∃ us xs, ts = us ++ rest ∧ NameList xs ys us) ∧
      ∀ t ∈ rest.head?, t.isMark .comma = true → line = true ∧ t.onNewLine = true := by
  induction hn : ts.length using Nat.strongRecOn generalizing ts ys with
  | _ n ih =>
    unfold readNames at h
    split at h
    · cases h
    · rename_i t ts
      split at h
      · cases h
      · rename_i x hx
        obtain ⟨gap, rfl⟩ := Tree.ident?_eq_some hx
        split at h
        · rename_i comma ts'
          split at h
          · rename_i hcomma
            obtain ⟨hc, -⟩ := Bool.and_eq_true_iff.1 hcomma
            obtain ⟨gap', span, rfl⟩ := Tree.isMark_eq_true hc
            obtain ⟨⟨ys', rest'⟩, hr, he⟩ := Option.map_eq_some_iff.1 h
            cases he
            have hlt : ts'.length < n := by
              rw [← hn, List.length_cons, List.length_cons]
              omega
            obtain ⟨⟨us, xs, rfl, hus⟩, hhead⟩ := ih _ hlt hr rfl
            exact ⟨⟨_, _, rfl, .cons hus⟩, hhead⟩
          · rename_i hcomma
            cases h
            refine ⟨⟨[_], [x], rfl, .last⟩, ?_⟩
            intro u hu hmark
            cases hu
            simpa [hmark] using hcomma
        · cases h
          exact ⟨⟨[_], [x], rfl, .last⟩, by simp⟩

/-! ## Specifications -/

/-- The trees that a specification is made of: its names, its type and its values. -/
structure ValueSpec.MadeOf (kind : DeclKind) (spec : ValueSpec) (written : List Ident)
    (us : Forest) : Prop where
  trees : ∃ ys ns tail, us = ns ++ tail ∧ NameList written ys ns ∧
    ValueSpec.Tail spec.type spec.values tail ∧ (∀ t ∈ tail.head?, t.isMark .comma = false) ∧
    spec.names = match kind with
      | .var => ys.filter fun y => !y.isComma
      | .const => ys
  span_eq : spec.span = hull us
  given : kind = .var → spec.type ≠ none ∨ spec.values ≠ []

theorem Expr.readList_ne_nil {I : Interior} {p : Place} {ts rest : Forest} {es : List Expr}
    (h : Expr.readList I p ts = some (es, rest)) : es ≠ [] := by
  obtain ⟨⟨e, rest'⟩, -, hr⟩ := Option.bind_eq_some_iff.1 h
  dsimp only at hr
  split at hr
  · split at hr
    · obtain ⟨⟨es', rest''⟩, -, hr⟩ := Option.bind_eq_some_iff.1 hr
      cases hr
      exact List.cons_ne_nil _ _
    · cases hr
      exact List.cons_ne_nil _ _
  · cases hr
    exact List.cons_ne_nil _ _

namespace ValueSpec

variable {I : Interior} {ts rest : Forest} {type : Option TypeExpr} {values : List Expr}

theorem readValues_ne_nil (h : readValues I ts = some (values, rest)) : values ≠ [] := by
  unfold readValues at h
  split at h
  · cases h
  · split at h
    · exact Expr.readList_ne_nil h
    · cases h

/-- A `var` has a type or values. -/
theorem readVar_given (h : readVar I ts = some (type, values, rest)) :
    type ≠ none ∨ values ≠ [] := by
  unfold readVar at h
  split at h
  · rename_i hv
    cases h
    exact .inr (readValues_ne_nil hv)
  · obtain ⟨⟨t, rest'⟩, -, hr⟩ := Option.bind_eq_some_iff.1 h
    dsimp only at hr
    split at hr
    · obtain ⟨⟨vs, rest''⟩, -, hr⟩ := Option.bind_eq_some_iff.1 hr
      cases hr
      exact .inl (Option.some_ne_none t)
    · cases hr
      exact .inl (Option.some_ne_none t)

/-- Where a phrase ends, a `const` has neither. -/
theorem readConst_ends (hends : ts.ends true = true)
    (h : readConst I ts = some (type, values, rest)) : rest = ts := by
  unfold readConst at h
  rw [hends, Bool.true_or, if_pos rfl] at h
  cases h
  rfl

theorem read_made (hI : I.MakesExprs) (kind : DeclKind) :
    Reader.Takes (read I kind) fun spec us => ∃ written, spec.MadeOf kind written us := by
  intro ts spec rest h
  obtain ⟨⟨ys, rest'⟩, hn, hr⟩ := Option.bind_eq_some_iff.1 h
  obtain ⟨⟨us, xs, rfl, hus⟩, hcomma⟩ := readNames_nameList hn
  have hhead : ∀ {tail rest'' : Forest}, rest' = tail ++ rest'' →
      ∀ t ∈ tail.head?, t ∈ rest'.head? := by
    rintro (_ | ⟨u, tail⟩) rest'' rfl t ht
    · cases ht
    · exact ht
  dsimp only at hr
  split at hr
  · obtain ⟨⟨type, values, rest''⟩, ht, hr⟩ := Option.bind_eq_some_iff.1 hr
    obtain ⟨tail, htail, hvs⟩ := readVar_takes hI ht
    cases hr
    refine ⟨us ++ tail, by rw [htail, List.append_assoc], xs, ?_, ?_, ?_⟩
    · refine ⟨ys, us, tail, rfl, hus, hvs, fun t ht' => ?_, rfl⟩
      by_contra hmark
      have h := hcomma t (hhead htail t ht') (by simpa using hmark)
      simp at h
    · rw [htail, ← List.append_assoc, Forest.spanOf_append]
    · exact fun _ => readVar_given ht
  · obtain ⟨⟨type, values, rest''⟩, ht, hr⟩ := Option.bind_eq_some_iff.1 hr
    obtain ⟨tail, htail, hvs⟩ := readConst_takes hI ht
    cases hr
    refine ⟨us ++ tail, by rw [htail, List.append_assoc], xs, ?_, ?_, ?_⟩
    · refine ⟨ys, us, tail, rfl, hus, hvs, fun t ht' => ?_, rfl⟩
      -- A comma on a line of its own ends the specification, which then takes nothing more.
      by_contra hmark
      have hline := hcomma t (hhead htail t ht') (by simpa using hmark)
      have hends : rest'.ends true = true := by
        cases rest' with
        | nil => rfl
        | cons u rest' =>
          cases hhead htail t ht'
          exact hline.2
      have hnil : tail = [] := List.self_eq_append_left.1 ((readConst_ends hends ht).trans htail)
      rw [hnil] at ht'
      cases ht'
    · rw [htail, ← List.append_assoc, Forest.spanOf_append]
    · intro hkind
      cases hkind

end ValueSpec

/-! ## Names as words of the text -/

/-- A piece that is a word is a name. -/
theorem Piece.Measured.isName {p : Piece} (h : p.Measured) (hk : p.kind = .word) :
    Recast.isName p.text = true := by
  obtain ⟨c, cs, n, hm, ht⟩ := h
  rw [hk] at hm
  cases Piece.begins_of_measure? hm with
  | word hb hi =>
    have htake := List.prefix_iff_eq_take.1 (List.takeWhile_prefix (l := cs) Letter.isMedial)
    rw [ht, ← htake, Recast.isName, hi, Bool.true_and]
    exact List.all_takeWhile

/-- A name stands as a word in the text. -/
def Ident.Written (src : Source) (x : Ident) : Prop :=
  ∃ gap, Lexeme.Placed src ⟨.word x.name, gap, x.span⟩

theorem Ident.Written.isName {src : Source} {x : Ident} (h : x.Written src) :
    Recast.isName x.name.toList = true := by
  obtain ⟨gap, p, hm, hk, -⟩ := h
  obtain rfl := Lexeme.eq_of_kindOf?_word hk
  exact hm.isName rfl

theorem Ident.Written.slice {src : Source} {x : Ident} (h : x.Written src) :
    src.slice? x.span = some x.name := by
  obtain ⟨gap, hp⟩ := h
  exact hp.slice_word

/-- The name that a type is, if it is a plain one. -/
def TypeExpr.ident? : TypeExpr → Option Ident
  | .named x => some x
  | .unsupported _ => none

theorem TypeExpr.MadeOf.written {src : Source} {type : TypeExpr} {us : Forest}
    (h : type.MadeOf us) (hp : Placed src us) : ∀ x ∈ type.ident?, x.Written src := by
  cases h with
  | named =>
    intro x hx
    cases hx
    exact ⟨_, hp.head.lexeme⟩
  | unsupported =>
    intro x hx
    cases hx

/-- What is found along placed trees is found in placed trees. -/
theorem Forest.Along.forall_placed {α : Type} {R : α → Forest → Prop} {src : Source} {as : List α}
    {ts : Forest} (h : Along R as ts) (hp : Placed src ts) :
    ∀ a ∈ as, ∃ us, Placed src us ∧ R a us := by
  induction h with
  | nil => exact List.forall_mem_nil _
  | cons skipped ha _ ih => exact List.forall_mem_cons.2 ⟨⟨_, hp.left.right, ha⟩, ih hp.right⟩

/-- A comma is no name. -/
theorem Ident.Written.not_comma {src : Source} {x : Ident} (h : x.Written src) :
    x.isComma = false := by
  rw [Ident.isComma, beq_eq_false_iff_ne]
  intro hname
  have hn := h.isName
  rw [hname] at hn
  exact absurd hn (by decide)

namespace NameList

variable {src : Source} {xs ys : List Ident} {us : Forest}

theorem written (h : NameList xs ys us) (hp : Placed src us) : ∀ x ∈ xs, x.Written src := by
  induction h with
  | last => exact List.forall_mem_singleton.2 ⟨_, hp.head.lexeme⟩
  | cons _ ih => exact List.forall_mem_cons.2 ⟨⟨_, hp.head.lexeme⟩, ih hp.tail.tail⟩

/-- Without the commas only the names are left. -/
theorem filter_eq (h : NameList xs ys us) (hx : ∀ x ∈ xs, x.isComma = false) :
    ys.filter (fun y => !y.isComma) = xs := by
  induction h with
  | last => simp [hx]
  | cons _ ih =>
    obtain ⟨hx, hxs⟩ := List.forall_mem_cons.1 hx
    have hcomma : ∀ span, Ident.isComma ⟨",", span⟩ = true := fun _ => rfl
    rw [List.filter_cons, if_pos (by simp [hx]), List.filter_cons, if_neg (by simp [hcomma]),
      ih hxs]

theorem mem_or_comma (h : NameList xs ys us) : ∀ y ∈ ys, y ∈ xs ∨ y.name = "," := by
  induction h with
  | last => exact fun y hy => .inl hy
  | cons _ ih =>
    refine List.forall_mem_cons.2 ⟨.inl List.mem_cons_self, List.forall_mem_cons.2 ⟨.inr rfl, ?_⟩⟩
    exact fun y hy => (ih y hy).imp_left (List.mem_cons_of_mem _)

theorem map_name_eq (h : NameList xs ys us) :
    ys.map Ident.name = (xs.map Ident.name).intersperse "," := by
  induction h with
  | last => rfl
  | @cons x gap gap' span xs ys us h ih =>
    cases h <;> simp_all

end NameList

/-! ## Names as they stand in the text -/

/-- What the pieces with a meaning are. -/
def Lexeme.kinds (ps : List Piece) : List LexemeKind := ps.filterMap Lexeme.kindOf?

/-- The names at the head of a text, as far as there are commas between them. -/
def listedNames : List LexemeKind → List String
  | .word x :: .mark .comma :: kinds => x :: listedNames kinds
  | .word x :: _ => [x]
  | _ => []

theorem Lexeme.kinds_blanks {blanks : List Piece} (h : ∀ p ∈ blanks, Lexeme.kindOf? p = none)
    (ps : List Piece) : kinds (blanks ++ ps) = kinds ps := by
  rw [kinds, List.filterMap_append, List.filterMap_eq_nil_iff.2 h]
  rfl

theorem Lexeme.kinds_cons {p : Piece} {kind : LexemeKind} (h : Lexeme.kindOf? p = some kind)
    (ps : List Piece) : kinds (p :: ps) = kind :: kinds ps :=
  List.filterMap_cons_some h

/-- Only the pieces with a meaning matter. -/
theorem Lexeme.kinds_meaningful (ps : List Piece) : kinds (Piece.meaningful ps) = kinds ps := by
  rw [kinds, Piece.meaningful, List.filterMap_filter]
  refine List.filterMap_congr fun p _ => ?_
  cases h : Lexeme.kindOf? p <;> simp

namespace Forest.Spread

variable {n : Nat} {ps : List Piece} {us : Forest}

theorem kinds_leaf {l : Lexeme} (h : Spread n ps (.leaf l :: us)) :
    ∃ m rest, Lexeme.kinds ps = l.kind :: Lexeme.kinds rest ∧ Spread m rest us := by
  obtain ⟨blanks, p, rest, rfl, hblanks, hk, -, hr⟩ := h.of_leaf
  exact ⟨_, rest, by rw [Lexeme.kinds_blanks hblanks, Lexeme.kinds_cons hk], hr⟩

theorem kinds_head (h : Spread n ps us) (hu : ∀ t ∈ us.head?, t.isMark .comma = false) :
    (Lexeme.kinds ps).head? ≠ some (.mark .comma) := by
  cases us with
  | nil =>
    rw [Lexeme.kinds, List.filterMap_eq_nil_iff.2 (nil_iff.1 h)]
    simp
  | cons t us =>
    have ht := hu t rfl
    cases t with
    | leaf l =>
      obtain ⟨m, rest, hk, -⟩ := h.kinds_leaf
      rw [hk, List.head?_cons]
      intro hc
      obtain ⟨kind, gap, span⟩ := l
      cases hc
      simp [Tree.isMark] at ht
    | group b gap inner closing span =>
      obtain ⟨blanks, l, inside, r, rest, rfl, hblanks, hl, -⟩ := h.of_group
      rw [List.append_assoc, Lexeme.kinds_blanks hblanks, List.cons_append, Lexeme.kinds_cons hl]
      simp

end Forest.Spread

theorem listedNames_word {x : String} {kinds : List LexemeKind}
    (h : kinds.head? ≠ some (.mark .comma)) : listedNames (.word x :: kinds) = [x] := by
  unfold listedNames
  split
  · simp_all
  · simp_all
  · simp_all

/-- The names of a list are found again in any text over its trees, if no comma follows. -/
theorem NameList.listedNames_eq {n : Nat} {ps : List Piece} {xs ys : List Ident} {us tail : Forest}
    (h : NameList xs ys us) (hs : Forest.Spread n ps (us ++ tail))
    (ht : ∀ t ∈ tail.head?, t.isMark .comma = false) :
    listedNames (Lexeme.kinds ps) = xs.map Ident.name := by
  induction h generalizing n ps with
  | last =>
    obtain ⟨m, rest, hk, hr⟩ := hs.kinds_leaf
    rw [hk, listedNames_word (hr.kinds_head ht)]
    rfl
  | cons _ ih =>
    obtain ⟨m, rest, hk, hr⟩ := hs.kinds_leaf
    obtain ⟨m', rest', hk', hr'⟩ := hr.kinds_leaf
    rw [hk, hk', listedNames, ih hr', List.map_cons]

namespace ValueSpec

/-- A specification with the names of a list: a `var` has them as they are, a `const` has the commas
between them for names too. -/
structure NamedAs (kind : DeclKind) (spec : ValueSpec) (xs : List String) : Prop where
  ne_nil : xs ≠ []
  names : ∀ x ∈ xs, isName x.toList = true
  eq : spec.names.map Ident.name = match kind with
    | .var => xs
    | .const => xs.intersperse ","

/-- A specification as it stands in the text: the names are those at the head of its text, a plain
type is a word of it, and a `var` has a type or values. -/
structure Written (src : Source) (kind : DeclKind) (spec : ValueSpec) : Prop where
  named : ∃ t ps, src.slice? spec.span = some t ∧ Piece.scan t.toList = .ok ps ∧
    spec.NamedAs kind (listedNames (Lexeme.kinds ps))
  words : ∀ x ∈ spec.names, x.Written src ∨ kind = .const ∧ x.name = ","
  type : ∀ t ∈ spec.type, ∀ x ∈ t.ident?, x.Written src
  given : kind = .var → spec.type ≠ none ∨ spec.values ≠ []

theorem MadeOf.written {src : Source} {kind : DeclKind} {spec : ValueSpec} {xs : List Ident}
    {us : Forest} (h : spec.MadeOf kind xs us) (hp : Placed src us) : spec.Written src kind := by
  obtain ⟨⟨ys, ns, tail, rfl, hns, ⟨vs, ws, rfl, htype, -⟩, hcomma, hnames⟩, hspan, hgiven⟩ := h
  have hne : ns ++ (vs ++ ws) ≠ [] := by cases hns <;> simp
  obtain ⟨t, n, ps, qs, hslice, hscan, hs, -, hqs⟩ := hp.slice? hne
  have hwords := hns.written hp.left
  have hlisted : listedNames (Lexeme.kinds qs) = xs.map Ident.name := by
    rw [← Lexeme.kinds_meaningful, hqs, Lexeme.kinds_meaningful, hns.listedNames_eq hs hcomma]
  have hvar := hns.filter_eq fun x hx => (hwords x hx).not_comma
  refine ⟨⟨t, qs, hspan ▸ hslice, hscan, ?_⟩, fun x hx => ?_, fun type ht => ?_, hgiven⟩
  · rw [hlisted]
    refine ⟨by cases hns <;> simp, ?_, ?_⟩
    · intro name hname
      obtain ⟨x, hx, rfl⟩ := List.mem_map.1 hname
      exact (hwords x hx).isName
    · rw [hnames]
      cases kind with
      | var => exact congrArg _ hvar
      | const => exact hns.map_name_eq
  · rw [hnames] at hx
    cases kind with
    | var => exact .inl (hwords x (hvar ▸ hx))
    | const => exact (hns.mem_or_comma x hx).imp (hwords x) fun h => ⟨rfl, h⟩
  · obtain ⟨us, hus, hm⟩ := htype.forall_placed hp.right.left type (Option.mem_toList.2 ht)
    exact hm.written hus

end ValueSpec

end Recast
