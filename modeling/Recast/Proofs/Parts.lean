import Recast.Proofs.Beginnings
import Recast.Proofs.Readers
import Recast.Proofs.Sound

/-!
# Parts found in trees

How the readers of statements and declarations come to sound spans. A part of a node is its span
together with what is to be known of it. Trees yield a part (`Forest.Yields`) if its span is their
hull, and what is to be known holds wherever the trees are placed; they have parts
(`Forest.Has`) if they yield them one after the other. A node over such trees has a span that
frames those of its parts (`Forest.Has.yields`), so of each reader there is nothing left to say but
which parts it finds in which trees.
-/

namespace Recast

open Forest (hull Along Carries)

/-! ## Marks -/

namespace Mark

/-- How a mark is written. -/
def text : Mark → String
  | .operator op => op.text
  | .comma => ","
  | .semicolon => ";"
  | .colon => ":"
  | .dot => "."
  | .ellipsis => "..."
  | .tilde => "~"
  | .null => "\x00"
  | .opening .paren => "("
  | .opening .square => "["
  | .opening .brace => "\x7b"
  | .closing .paren => ")"
  | .closing .square => "]"
  | .closing .brace => "\x7d"

/-- A mark is read from its text. -/
theorem text_of_read? {c : Char} {cs : List Char} {m : Mark} {n : Nat}
    (h : read? c cs = some (m, n)) : String.ofList (c :: cs.take n) = m.text := by
  unfold read? at h
  dsimp only at h
  split at h <;> cases h <;> rfl

end Mark

namespace Piece.Measured

variable {p : Piece}

/-- A piece that is a mark was read as one. -/
theorem read?_of_mark {m : Mark} (h : p.Measured) (hk : p.kind = .mark m) :
    ∃ c cs n, Mark.read? c cs = some (m, n) ∧ p.text = c :: cs.take n := by
  obtain ⟨c, cs, n, hm, ht⟩ := h
  rw [hk] at hm
  cases Piece.begins_of_measure? hm with
  | mark hb hi hn hq hc hr => exact ⟨c, cs, n, hr, ht⟩

/-- So it has the text of the mark. -/
theorem text_of_mark {m : Mark} (h : p.Measured) (hk : p.kind = .mark m) :
    String.ofList p.text = m.text := by
  obtain ⟨c, cs, n, hm, ht⟩ := h.read?_of_mark hk
  rw [ht]
  exact Mark.text_of_read? hm

end Piece.Measured

/-! ## Leaves in a source text -/

namespace Lexeme

theorem eq_of_kindOf?_word {p : Piece} {w : String} (h : kindOf? p = some (.word w)) :
    p = ⟨.word, w.toList⟩ := by
  obtain ⟨k, cs⟩ := p
  unfold kindOf? at h
  split at h <;> simp_all
  rw [← h, String.toList_ofList]

theorem eq_of_kindOf?_literal {p : Piece} {kind : LiteralKind} {t : String}
    (h : kindOf? p = some (.literal kind t)) : p = ⟨.literal kind, t.toList⟩ := by
  obtain ⟨k, cs⟩ := p
  unfold kindOf? at h
  split at h <;> simp_all
  rw [← h.2, String.toList_ofList]

theorem eq_of_kindOf?_mark {p : Piece} {m : Mark} (h : kindOf? p = some (.mark m))
    (hm : p.Measured) : p = ⟨.mark m, m.text.toList⟩ := by
  have hk : p.kind = .mark m := by
    unfold kindOf? at h
    split at h <;> simp_all
  rw [← hm.text_of_mark hk, String.toList_ofList, ← hk]

end Lexeme

namespace Lexeme.Placed

variable {src : Source} {gap : Gap} {span : Span}

theorem slice_word {w : String} (h : Lexeme.Placed src ⟨.word w, gap, span⟩) :
    src.slice? span = some w := by
  obtain ⟨p, -, hk, hs⟩ := h
  rwa [eq_of_kindOf?_word hk, String.ofList_toList] at hs

theorem slice_literal {k : LiteralKind} {t : String}
    (h : Lexeme.Placed src ⟨.literal k t, gap, span⟩) : src.slice? span = some t := by
  obtain ⟨p, -, hk, hs⟩ := h
  rwa [eq_of_kindOf?_literal hk, String.ofList_toList] at hs

theorem slice_mark {m : Mark} (h : Lexeme.Placed src ⟨.mark m, gap, span⟩) :
    src.slice? span = some m.text := by
  obtain ⟨p, hm, hk, hs⟩ := h
  rwa [eq_of_kindOf?_mark hk hm, String.ofList_toList] at hs

end Lexeme.Placed

/-! ## Parts -/

/-- The span of a part, and what is to be known of the part. -/
abbrev Part := Span × Prop

/-- What is known of all parts of a kind. -/
theorem Part.forall_mem_of_map {α : Type} {f : α → Part} {as : List α}
    (h : ∀ p ∈ as.map f, p.2) : ∀ a ∈ as, (f a).2 :=
  fun _ ha => h _ (List.mem_map_of_mem ha)

def Ident.part (src : Source) (x : Ident) : Part := (x.span, x.Sound src)

def TypeExpr.part (src : Source) (type : TypeExpr) : Part := (type.span, type.Sound src)

def Expr.part (P : Expr → Prop) (e : Expr) : Part := (e.span, P e)

def ValueSpec.part (src : Source) (P : Expr → Prop) (spec : ValueSpec) : Part :=
  (spec.span, spec.Sound src P)

def Stmt.part (src : Source) (P : Expr → Prop) (s : Stmt) : Part := (s.span, s.Sound src P)

def Block.part (src : Source) (P : Expr → Prop) (b : Block) : Part := (b.span, b.Sound src P)

namespace Forest

variable {src : Source} {us vs ts : Forest} {part : Part} {parts others : List Part}

/-- The trees of a part, if its span is their hull and it is as it is to be where they are
placed. -/
structure Yields (src : Source) (part : Part) (us : Forest) : Prop where
  ne_nil : us ≠ []
  span_eq : part.1 = hull us
  sound : Placed src us → part.2

/-- The trees yield the parts, one after the other, perhaps with other trees between them. -/
structure Has (src : Source) (parts : List Part) (us : Forest) : Prop where
  carries : Carries us (parts.map Prod.fst)
  sound : Placed src us → ∀ p ∈ parts, p.2

namespace Has

theorem nil : Has src [] us := ⟨.nil, by simp⟩

theorem skips (us : Forest) (h : Has src parts ts) : Has src parts (us ++ ts) :=
  ⟨h.carries.skips us, fun hp => h.sound hp.right⟩

theorem skip (t : Tree) (h : Has src parts ts) : Has src parts (t :: ts) := h.skips [t]

theorem append (h : Has src parts us) (k : Has src others vs) :
    Has src (parts ++ others) (us ++ vs) := by
  refine ⟨?_, fun hp => List.forall_mem_append.2 ⟨h.sound hp.left, k.sound hp.right⟩⟩
  rw [List.map_append]
  exact h.carries.append k.carries

theorem more (h : Has src parts us) (vs : Forest) : Has src parts (us ++ vs) := by
  have ha : Has src (parts ++ []) (us ++ vs) := h.append nil
  rwa [List.append_nil] at ha

/-- What stands inside a group, seen from outside. -/
theorem group {b : Bracket} {gap closing : Gap} {span : Span} (h : Has src parts us) :
    Has src parts [.group b gap us closing span] :=
  ⟨h.carries.group, fun hp => h.sound hp.head.inner⟩

/-- A node over trees frames the parts that they have. -/
theorem yields {S : Prop} (h : Has src parts us) (hn : us ≠ [])
    (hS : src.Frames (hull us) (parts.map Prod.fst) → (∀ p ∈ parts, p.2) → S) :
    Yields src (hull us, S) us :=
  ⟨hn, rfl, fun hp => hS ⟨hp.covers_hull hn, h.carries.hull_holds hp⟩ (h.sound hp)⟩

end Has

namespace Yields

theorem has (h : Yields src part us) : Has src [part] us := by
  refine ⟨?_, fun hp => List.forall_mem_singleton.2 (h.sound hp)⟩
  rw [List.map_singleton, h.span_eq]
  exact .of_ne_nil h.ne_nil

/-- Of a part that is kept by its span alone, only the trees matter. -/
theorem unsupported (P : Expr → Prop) (h : Yields src part us) :
    Yields src (Stmt.part src P (.unsupported part.1)) us :=
  ⟨h.ne_nil, h.span_eq, fun hp => .unsupported (h.span_eq ▸ hp.covers_hull h.ne_nil)⟩

end Yields

/-- Trees kept as a whole. -/
theorem yields_unsupported (P : Expr → Prop) (hn : us ≠ []) :
    Yields src (Stmt.part src P (.unsupported (hull us))) us :=
  ⟨hn, rfl, fun hp => .unsupported (hp.covers_hull hn)⟩

theorem Along.has {α : Type} {R : α → Forest → Prop} {as : List α} {f : α → Part}
    (h : Along R as us) (hR : ∀ a us, R a us → Yields src (f a) us) : Has src (as.map f) us := by
  induction h with
  | nil => exact .nil
  | cons skipped ha _ ih =>
    rw [List.append_assoc]
    exact ((hR _ _ ha).has.append ih).skips skipped

end Forest

/-! ## Names, types and expressions -/

section

open Forest (Yields Has)

variable {src : Source} {us : Forest}

theorem Tree.word_yields {gap : Gap} {x : Ident} :
    Yields src (x.part src) [.leaf ⟨.word x.name, gap, x.span⟩] :=
  ⟨by simp, rfl, fun hp => ⟨hp.head.lexeme.slice_word, hp.head.covers.nonempty⟩⟩

theorem Tree.ident?_yields {t : Tree} {x : Ident} (h : t.ident? = some x) :
    Yields src (x.part src) [t] := by
  obtain ⟨gap, rfl⟩ := Tree.ident?_eq_some h
  exact Tree.word_yields

/-- A comma among names counts as one of them. -/
theorem Tree.comma_yields {t : Tree} (h : t.isMark .comma = true) :
    Yields src (Ident.part src ⟨",", t.span⟩) [t] := by
  obtain ⟨gap, span, rfl⟩ := Tree.isMark_eq_true h
  exact ⟨by simp, rfl, fun hp => ⟨hp.head.lexeme.slice_mark, hp.head.covers.nonempty⟩⟩

theorem TypeExpr.MadeOf.yields {type : TypeExpr} (h : type.MadeOf us) :
    Yields src (type.part src) us := by
  refine ⟨h.ne_nil, h.span_eq, fun hp => ?_⟩
  cases h with
  | named => exact ⟨hp.head.lexeme.slice_word, hp.head.covers.nonempty⟩
  | unsupported hu => exact hp.covers_hull hu

/-- What is known of expressions that are made of placed trees. -/
def Expr.Follows (src : Source) (P : Expr → Prop) : Prop :=
  ∀ {e : Expr} {us : Forest}, e.MadeOf us → Forest.Placed src us → P e

theorem Expr.MadeOf.yields {P : Expr → Prop} {e : Expr} (h : e.MadeOf us)
    (hP : Expr.Follows src P) : Yields src (e.part P) us :=
  ⟨h.ne_nil, h.span_eq, hP h⟩

end

end Recast
