import Recast.Lexis.Forest
import Recast.Proofs.Cuts

/-!
# Forests over pieces

A forest is spread over pieces of a text (`Forest.Spread`) if its leaves and brackets are those of
the pieces that have a meaning, in their order, each with the span at which the piece stands. A
forest is placed in a source text (`Forest.Placed`) if it is spread over pieces of the text that
stand side by side. So nothing with a meaning stands between its trees, and to be placed is passed
on to the trees that follow a tree and to those inside a group.
-/

namespace Recast

/-! ## Pieces of a text -/

/-- A piece with the kind and the length that its characters are measured to have. -/
def Piece.Measured (p : Piece) : Prop :=
  ∃ c cs n, Piece.measure? c cs = some (p.kind, n) ∧ p.text = c :: cs.take n

namespace Piece

theorem measured_of_scan {cs : List Char} {ps : List Piece} (h : scan cs = .ok ps) :
    ∀ p ∈ ps, p.Measured := by
  induction cs using scan.induct generalizing ps with
  | case1 =>
    rw [scan] at h
    cases h
    simp
  | case2 c cs hm => simp [scan, hm] at h
  | case3 c cs kind more hm pieces hs ih =>
    rw [scan, hm] at h
    simp only [hs, Except.ok.injEq] at h
    subst h
    exact List.forall_mem_cons.2 ⟨⟨c, cs, more, hm, rfl⟩, ih hs⟩
  | case4 c cs kind more hm n hs ih =>
    rw [scan, hm] at h
    simp [hs] at h

/-- The pieces with a meaning: blanks and comments left out. -/
def meaningful (ps : List Piece) : List Piece := ps.filter fun p => (Lexeme.kindOf? p).isSome

@[simp] theorem meaningful_nil : meaningful [] = [] := rfl

theorem meaningful_cons {p : Piece} {kind : LexemeKind} (h : Lexeme.kindOf? p = some kind)
    (ps : List Piece) : meaningful (p :: ps) = p :: meaningful ps :=
  List.filter_cons_of_pos (by rw [h]; rfl)

@[simp] theorem meaningful_append (ps qs : List Piece) :
    meaningful (ps ++ qs) = meaningful ps ++ meaningful qs := List.filter_append ..

theorem meaningful_eq_nil {ps : List Piece} (h : ∀ p ∈ ps, Lexeme.kindOf? p = none) :
    meaningful ps = [] :=
  List.filter_eq_nil_iff.2 fun p hp => by simp [h p hp]

/-- Pieces that make up a text, those with a meaning read from it. -/
structure MakeUp (ps : List Piece) (cs : List Char) : Prop where
  join : ps.flatMap Piece.text = cs
  measured : ∀ p ∈ meaningful ps, p.Measured

theorem makeUp_of_scan {cs : List Char} {ps : List Piece} (h : scan cs = .ok ps) : MakeUp ps cs :=
  ⟨join_scan h, fun p hp => measured_of_scan h p (List.mem_of_mem_filter hp)⟩

/-- The pieces of a source are those of its text, but for a byte order mark at its head. -/
theorem ofChars_eq_ok {cs : List Char} {ps : List Piece} (h : ofChars cs = .ok ps) :
    (scan cs = .ok ps ∧ ∀ ds, cs ≠ '\uFEFF' :: ds) ∨
      ∃ ds qs, cs = '\uFEFF' :: ds ∧ scan ds = .ok qs ∧ ps = ⟨.blank, ['\uFEFF']⟩ :: qs := by
  unfold ofChars at h
  split at h
  · rename_i ds
    cases hs : scan ds with
    | error n => simp [hs, Except.map] at h
    | ok qs =>
      simp only [hs, Except.map, Except.ok.injEq] at h
      exact .inr ⟨ds, qs, rfl, hs, h.symm⟩
  · rename_i hbom
    exact .inl ⟨h, fun ds he => hbom ds he⟩

theorem makeUp_of_ofChars {cs : List Char} {ps : List Piece} (h : ofChars cs = .ok ps) :
    MakeUp ps cs := by
  rcases ofChars_eq_ok h with ⟨hs, -⟩ | ⟨ds, qs, rfl, hs, rfl⟩
  · exact makeUp_of_scan hs
  · obtain ⟨hjoin, hmeasured⟩ := makeUp_of_scan hs
    -- the byte order mark has no meaning
    exact ⟨congrArg (List.cons _) hjoin, hmeasured⟩

/-- The bytes that pieces take. -/
def width (ps : List Piece) : Nat := utf8Length (ps.flatMap Piece.text)

@[simp] theorem width_nil : width [] = 0 := rfl

@[simp] theorem width_cons (p : Piece) (ps : List Piece) :
    width (p :: ps) = utf8Length p.text + width ps := by
  rw [width, List.flatMap_cons, utf8Length_append]
  rfl

@[simp] theorem width_append (ps qs : List Piece) : width (ps ++ qs) = width ps + width qs := by
  rw [width, List.flatMap_append, utf8Length_append]
  rfl

end Piece

/-! ## Trees over pieces -/

namespace Forest

open Piece (width width_nil width_cons width_append)

/-- The trees over pieces that begin at an offset. -/
inductive Spread : Nat → List Piece → Forest → Prop
  | nil {n : Nat} : Spread n [] []
  | skip {n : Nat} {p : Piece} {ps : List Piece} {us : Forest} (hk : Lexeme.kindOf? p = none)
      (h : Spread (n + width [p]) ps us) : Spread n (p :: ps) us
  | leaf {n : Nat} {p : Piece} {ps : List Piece} {kind : LexemeKind} {gap : Gap} {us : Forest}
      (hk : Lexeme.kindOf? p = some kind) (h : Spread (n + width [p]) ps us) :
      Spread n (p :: ps) (.leaf ⟨kind, gap, ⟨n, n + width [p]⟩⟩ :: us)
  | group {n : Nat} {l r : Piece} {inside ps : List Piece} {b : Bracket} {gap closing : Gap}
      {inner us : Forest} (hl : Lexeme.kindOf? l = some (.mark (.opening b)))
      (hr : Lexeme.kindOf? r = some (.mark (.closing b)))
      (hi : Spread (n + width [l]) inside inner)
      (h : Spread (n + width (l :: (inside ++ [r]))) ps us) :
      Spread n (l :: (inside ++ r :: ps))
        (.group b gap inner closing ⟨n, n + width (l :: (inside ++ [r]))⟩ :: us)

namespace Spread

variable {n : Nat} {ps qs : List Piece} {us vs : Forest}

/-- The same offset in other words. -/
theorem at_eq {m : Nat} (h : Spread m ps us) (he : m = n) : Spread n ps us := he ▸ h

/-- No trees stand over pieces without a meaning. -/
theorem nil_iff : Spread n ps [] ↔ ∀ p ∈ ps, Lexeme.kindOf? p = none := by
  induction ps generalizing n with
  | nil => exact ⟨fun _ => List.forall_mem_nil _, fun _ => .nil⟩
  | cons p ps ih =>
    rw [List.forall_mem_cons]
    constructor
    · intro h
      cases h with
      | skip hk h => exact ⟨hk, ih.1 h⟩
    · intro h
      exact .skip h.1 (ih.2 h.2)

theorem append (h : Spread n ps us) (k : Spread (n + width ps) qs vs) :
    Spread n (ps ++ qs) (us ++ vs) := by
  induction h with
  | nil => exact k
  | skip hk _ ih => exact .skip hk (ih (k.at_eq (by simp [Nat.add_assoc])))
  | leaf hk _ ih => exact .leaf hk (ih (k.at_eq (by simp [Nat.add_assoc])))
  | group hl hr hi _ _ ih =>
    rw [List.cons_append, List.append_assoc]
    exact .group hl hr hi (ih (k.at_eq (by simp [Nat.add_assoc])))

/-- Trees side by side stand over pieces side by side. -/
theorem split (h : Spread n ps (us ++ vs)) :
    ∃ qs rs, ps = qs ++ rs ∧ Spread n qs us ∧ Spread (n + width qs) rs vs := by
  generalize hts : us ++ vs = ts at h
  induction h generalizing us with
  | nil =>
    obtain ⟨rfl, rfl⟩ := List.append_eq_nil_iff.1 hts
    exact ⟨[], [], rfl, .nil, .nil⟩
  | @skip n p ps ts hk h ih =>
    obtain ⟨qs, rs, rfl, hq, hr⟩ := ih hts
    exact ⟨p :: qs, rs, rfl, .skip hk hq, hr.at_eq (by simp [Nat.add_assoc])⟩
  | @leaf n p ps kind gap ts hk h ih =>
    cases us with
    | nil =>
      obtain rfl : vs = _ := hts
      exact ⟨[], p :: ps, rfl, .nil, .leaf hk h⟩
    | cons t us =>
      obtain ⟨ht, hus⟩ := List.cons.inj hts
      obtain ⟨qs, rs, rfl, hq, hr⟩ := ih hus
      rw [ht]
      exact ⟨p :: qs, rs, rfl, .leaf hk hq, hr.at_eq (by simp [Nat.add_assoc])⟩
  | @group n l r inside ps b gap closing inner ts hl hr hi h _ ih =>
    cases us with
    | nil =>
      obtain rfl : vs = _ := hts
      exact ⟨[], _, rfl, .nil, .group hl hr hi h⟩
    | cons t us =>
      obtain ⟨ht, hus⟩ := List.cons.inj hts
      obtain ⟨qs, rs, rfl, hq, hrest⟩ := ih hus
      rw [ht]
      exact ⟨l :: (inside ++ r :: qs), rs, by simp, .group hl hr hi hq,
        hrest.at_eq (by simp [Nat.add_assoc])⟩

/-- What comes before the first tree has no meaning. -/
theorem dropBlanks (h : Spread n ps us) :
    ∃ blanks rest, ps = blanks ++ rest ∧ (∀ p ∈ blanks, Lexeme.kindOf? p = none) ∧
      (∀ p ∈ rest.head?, Lexeme.kindOf? p ≠ none) ∧ Spread (n + width blanks) rest us := by
  induction h with
  | nil => exact ⟨[], [], rfl, by simp, by simp, .nil⟩
  | @skip n p ps us hk h ih =>
    obtain ⟨blanks, rest, rfl, hblanks, hrest, hs⟩ := ih
    exact ⟨p :: blanks, rest, rfl, List.forall_mem_cons.2 ⟨hk, hblanks⟩, hrest,
      hs.at_eq (by simp [Nat.add_assoc])⟩
  | leaf hk h => exact ⟨[], _, rfl, by simp, by simp [hk], .leaf hk h⟩
  | group hl hr hi h => exact ⟨[], _, rfl, by simp, by simp [hl], .group hl hr hi h⟩

theorem of_leaf {l : Lexeme} (h : Spread n ps (.leaf l :: us)) :
    ∃ blanks p rest, ps = blanks ++ p :: rest ∧ (∀ q ∈ blanks, Lexeme.kindOf? q = none) ∧
      Lexeme.kindOf? p = some l.kind ∧
      l.span = ⟨n + width blanks, n + width blanks + width [p]⟩ ∧
      Spread (n + width blanks + width [p]) rest us := by
  obtain ⟨blanks, rest, rfl, hblanks, hrest, hs⟩ := h.dropBlanks
  cases hs with
  | skip hk => exact absurd hk (hrest _ rfl)
  | leaf hk hs => exact ⟨blanks, _, _, rfl, hblanks, hk, rfl, hs⟩

theorem of_group {b : Bracket} {gap closing : Gap} {inner : Forest} {span : Span}
    (h : Spread n ps (.group b gap inner closing span :: us)) :
    ∃ blanks l inside r rest, ps = blanks ++ (l :: (inside ++ [r])) ++ rest ∧
      (∀ q ∈ blanks, Lexeme.kindOf? q = none) ∧
      Lexeme.kindOf? l = some (.mark (.opening b)) ∧
      Lexeme.kindOf? r = some (.mark (.closing b)) ∧
      span = ⟨n + width blanks, n + width blanks + width (l :: (inside ++ [r]))⟩ ∧
      Spread (n + width blanks + width [l]) inside inner ∧
      Spread (n + width blanks + width (l :: (inside ++ [r]))) rest us := by
  obtain ⟨blanks, rest, rfl, hblanks, hrest, hs⟩ := h.dropBlanks
  cases hs with
  | skip hk => exact absurd hk (hrest _ rfl)
  | group hl hr hi hs => exact ⟨blanks, _, _, _, _, by simp, hblanks, hl, hr, rfl, hi, hs⟩

/-- A tree stands over neighbouring pieces, the first of which has a meaning. -/
theorem of_cons {t : Tree} (h : Spread n ps (t :: us)) :
    ∃ blanks q qs rest, ps = blanks ++ (q :: qs) ++ rest ∧
      (∀ q ∈ blanks, Lexeme.kindOf? q = none) ∧ Lexeme.kindOf? q ≠ none ∧
      t.span = ⟨n + width blanks, n + width blanks + width (q :: qs)⟩ ∧
      Spread (n + width blanks + width (q :: qs)) rest us := by
  cases t with
  | leaf l =>
    obtain ⟨blanks, p, rest, rfl, hblanks, hk, hspan, hs⟩ := h.of_leaf
    exact ⟨blanks, p, [], rest, by simp, hblanks, by simp [hk], hspan, hs⟩
  | group b gap inner closing span =>
    obtain ⟨blanks, l, inside, r, rest, rfl, hblanks, hl, -, hspan, -, hs⟩ := h.of_group
    exact ⟨blanks, l, inside ++ [r], rest, rfl, hblanks, by simp [hl], hspan, hs⟩

/-- The trees lie where the pieces do. -/
theorem bounds (h : Spread n ps us) :
    ∀ t ∈ us, n ≤ t.span.start ∧ t.span.stop ≤ n + width ps := by
  induction h with
  | nil => exact List.forall_mem_nil _
  | @skip n p ps us hk h ih =>
    intro t ht
    obtain ⟨hstart, hstop⟩ := ih t ht
    simp only [width_cons, width_nil] at hstart hstop ⊢
    omega
  | @leaf n p ps kind gap us hk h ih =>
    refine List.forall_mem_cons.2 ⟨⟨Nat.le_refl _, ?_⟩, ?_⟩
    · simp only [Tree.span, width_cons, width_nil]
      omega
    · intro t ht
      obtain ⟨hstart, hstop⟩ := ih t ht
      simp only [width_cons, width_nil] at hstart hstop ⊢
      omega
  | @group n l r inside ps b gap closing inner us hl hr hi h _ ih =>
    refine List.forall_mem_cons.2 ⟨⟨Nat.le_refl _, ?_⟩, ?_⟩
    · simp only [Tree.span, width_cons, width_append, width_nil]
      omega
    · intro t ht
      obtain ⟨hstart, hstop⟩ := ih t ht
      simp only [width_cons, width_append, width_nil] at hstart hstop ⊢
      omega

end Spread

end Forest

/-! ## Placed trees -/

/-- Pieces of a text stand where those before them end. -/
theorem Source.slice?_pieces {src : Source} {before ps after : List Piece}
    (h : Piece.ofChars src.chars = .ok (before ++ ps ++ after)) :
    src.slice? ⟨Piece.width before, Piece.width before + Piece.width ps⟩
      = some (String.ofList (ps.flatMap Piece.text)) := by
  have hjoin := (Piece.makeUp_of_ofChars h).join
  rw [List.flatMap_append, List.flatMap_append] at hjoin
  refine Source.slice?_eq_some_iff.2
    ⟨before.flatMap Piece.text, after.flatMap Piece.text, ?_, rfl, ?_⟩
  · rw [String.toList_ofList, hjoin]
  · rw [String.toList_ofList]
    rfl

/-- A lexeme is a piece of the text at its span. -/
def Lexeme.Placed (src : Source) (l : Lexeme) : Prop :=
  ∃ p : Piece, p.Measured ∧ Lexeme.kindOf? p = some l.kind ∧
    src.slice? l.span = some (String.ofList p.text)

/-- Trees spread over pieces of a text that stand side by side. -/
def Forest.Placed (src : Source) (us : Forest) : Prop :=
  ∃ before ps after, Piece.ofChars src.chars = .ok (before ++ ps ++ after) ∧
    Forest.Spread (Piece.width before) ps us

/-- A tree that is placed by itself. -/
def Tree.Placed (src : Source) (t : Tree) : Prop := Forest.Placed src [t]

namespace Forest

variable {src : Source} {us vs : Forest}

theorem Placed.left (h : Placed src (us ++ vs)) : Placed src us := by
  obtain ⟨before, ps, after, hps, hs⟩ := h
  obtain ⟨qs, rs, rfl, hq, -⟩ := hs.split
  exact ⟨before, qs, rs ++ after, by simpa using hps, hq⟩

theorem Placed.right (h : Placed src (us ++ vs)) : Placed src vs := by
  obtain ⟨before, ps, after, hps, hs⟩ := h
  obtain ⟨qs, rs, rfl, -, hr⟩ := hs.split
  exact ⟨before ++ qs, rs, after, by simpa using hps, hr.at_eq (Piece.width_append _ _).symm⟩

theorem Placed.tail {t : Tree} (h : Placed src (t :: us)) : Placed src us := by
  have hs : Placed src ([t] ++ us) := h
  exact hs.right

theorem Placed.head {t : Tree} (h : Placed src (t :: us)) : t.Placed src := by
  have hs : Placed src ([t] ++ us) := h
  exact hs.left

theorem Placed.trees (h : Placed src us) : ∀ t ∈ us, t.Placed src := by
  intro t ht
  obtain ⟨before, after, rfl⟩ := List.append_of_mem ht
  exact h.right.head

theorem Placed.before (h : Placed src (us ++ vs)) {t u : Tree} (ht : t ∈ us) (hu : u ∈ vs) :
    t.span.Before u.span := by
  obtain ⟨_, ps, _, -, hs⟩ := h
  obtain ⟨qs, rs, rfl, hq, hr⟩ := hs.split
  exact Nat.le_trans (hq.bounds t ht).2 (hr.bounds u hu).1

end Forest

namespace Tree.Placed

variable {src : Source}

/-- A tree stands over characters of the text: its first piece has some. -/
theorem covers {t : Tree} (h : t.Placed src) : src.Covers t.span := by
  obtain ⟨before, ps, after, hps, hs⟩ := h
  obtain ⟨blanks, q, qs, rest, rfl, -, hq, hspan, -⟩ := hs.of_cons
  have hqs : Piece.ofChars src.chars
      = .ok ((before ++ blanks) ++ (q :: qs) ++ (rest ++ after)) := by
    simpa using hps
  have hslice := Source.slice?_pieces hqs
  rw [Piece.width_append, ← hspan] at hslice
  obtain ⟨kind, hk⟩ := Option.ne_none_iff_exists'.1 hq
  obtain ⟨c, cs, n, -, htext⟩ :=
    (Piece.makeUp_of_ofChars hqs).measured q (by simp [Piece.meaningful_cons hk])
  refine ⟨.of_slice? hslice, ?_⟩
  have hpos := c.utf8Size_pos
  rw [hspan]
  simp only [Piece.width_cons, htext, utf8Length_cons]
  omega

theorem lexeme {l : Lexeme} (h : Tree.Placed src (.leaf l)) : l.Placed src := by
  obtain ⟨before, ps, after, hps, hs⟩ := h
  obtain ⟨blanks, p, rest, rfl, -, hk, hspan, -⟩ := hs.of_leaf
  have hp : Piece.ofChars src.chars = .ok ((before ++ blanks) ++ [p] ++ (rest ++ after)) := by
    simpa using hps
  have hm := (Piece.makeUp_of_ofChars hp).measured p (by simp [Piece.meaningful_cons hk])
  have hslice := Source.slice?_pieces hp
  rw [Piece.width_append, ← hspan, List.flatMap_singleton] at hslice
  exact ⟨p, hm, hk, hslice⟩

section

variable {b : Bracket} {gap closing : Gap} {us : Forest} {span : Span}

/-- What stands inside a placed group is placed. -/
theorem inner (h : Tree.Placed src (.group b gap us closing span)) : Forest.Placed src us := by
  obtain ⟨before, ps, after, hps, hs⟩ := h
  obtain ⟨blanks, l, inside, r, rest, rfl, -, -, -, -, hi, -⟩ := hs.of_group
  refine ⟨before ++ blanks ++ [l], inside, r :: (rest ++ after), by simpa using hps, ?_⟩
  exact hi.at_eq (by simp [Nat.add_assoc])

theorem encloses (h : Tree.Placed src (.group b gap us closing span)) :
    ∀ t ∈ us, span.Encloses t.span := by
  obtain ⟨before, ps, after, hps, hs⟩ := h
  obtain ⟨blanks, l, inside, r, rest, rfl, -, -, -, rfl, hi, -⟩ := hs.of_group
  intro t ht
  obtain ⟨hstart, hstop⟩ := hi.bounds t ht
  simp only [Span.Encloses, Piece.width_cons, Piece.width_append,
    Piece.width_nil] at hstart hstop ⊢
  omega

end

end Tree.Placed

end Recast
