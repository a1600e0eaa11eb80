import Recast.Grammar.File
import Recast.Proofs.Unplaced

/-!
# Reading without places

Readers hand the spans of trees on to what they make of them, and look at no span. So what is read
from trees without spans is what is read from the trees, without spans (`Reader.Placeless`). Here
are the trees, what is asked of them, and the readers of sequences.
-/

namespace Recast

/-! ## Trees without spans -/

def Lexeme.unplaced (l : Lexeme) : Lexeme := ⟨l.kind, l.gap, .none⟩

namespace Tree

mutual

/-- A tree with all its spans left out. -/
def unplaced : Tree → Tree
  | .leaf l => .leaf l.unplaced
  | .group b gap inner closing _ => .group b gap (unplacedList inner) closing .none
termination_by structural t => t

def unplacedList : List Tree → List Tree
  | [] => []
  | t :: ts => t.unplaced :: unplacedList ts
termination_by structural ts => ts

end

theorem unplacedList_eq (ts : List Tree) : unplacedList ts = ts.map unplaced := by
  induction ts with
  | nil => rfl
  | cons t ts ih => rw [unplacedList, ih, List.map_cons]

@[simp] theorem unplaced_leaf (k : LexemeKind) (g : Gap) (s : Span) :
    (leaf ⟨k, g, s⟩).unplaced = .leaf ⟨k, g, .none⟩ := rfl

@[simp] theorem unplaced_group (b : Bracket) (g : Gap) (inner : List Tree) (c : Gap) (s : Span) :
    (group b g inner c s).unplaced = .group b g (inner.map unplaced) c .none := by
  rw [unplaced, unplacedList_eq]

theorem exists_eq_group_of_unplaced {t : Tree} {b : Bracket} {g c : Gap} {us : List Tree} {s : Span}
    (h : t.unplaced = .group b g us c s) : ∃ inner span, t = .group b g inner c span := by
  cases t with
  | leaf l => cases h
  | group b' g' inner c' span =>
    rw [unplaced_group] at h
    cases h
    exact ⟨inner, span, rfl⟩

@[simp] theorem span_unplaced (t : Tree) : t.unplaced.span = .none := by
  cases t <;> rfl

@[simp] theorem gap_unplaced (t : Tree) : t.unplaced.gap = t.gap := by
  cases t <;> rfl

@[simp] theorem word?_unplaced (t : Tree) : t.unplaced.word? = t.word? := by
  rcases t with ⟨k, g, s⟩ | _
  · cases k <;> rfl
  · rfl

@[simp] theorem ident?_unplaced (t : Tree) :
    t.unplaced.ident? = t.ident?.map Ident.unplaced := by
  rcases t with ⟨k, g, s⟩ | _
  · cases k <;> rfl
  · rfl

@[simp] theorem isWord_unplaced (w : String) (t : Tree) : t.unplaced.isWord w = t.isWord w := by
  rw [isWord, isWord, word?_unplaced]

@[simp] theorem isMark_unplaced (m : Mark) (t : Tree) : t.unplaced.isMark m = t.isMark m := by
  rcases t with ⟨k, g, s⟩ | _
  · cases k <;> rfl
  · rfl

@[simp] theorem isOperator_unplaced (op : Operator) (t : Tree) :
    t.unplaced.isOperator op = t.isOperator op :=
  isMark_unplaced ..

@[simp] theorem isTerminator_unplaced (t : Tree) : t.unplaced.isTerminator = t.isTerminator := by
  rw [isTerminator, isTerminator, isMark_unplaced, isMark_unplaced]

@[simp] theorem operator?_unplaced (t : Tree) : t.unplaced.operator? = t.operator? := by
  rcases t with ⟨k, g, s⟩ | _
  · rcases k with _ | _ | m
    · rfl
    · rfl
    · cases m <;> rfl
  · rfl

@[simp] theorem touches_unplaced (t : Tree) : t.unplaced.touches = t.touches := by
  rw [touches, touches, gap_unplaced]

@[simp] theorem onNewLine_unplaced (t : Tree) : t.unplaced.onNewLine = t.onNewLine := by
  rw [onNewLine, onNewLine, gap_unplaced]

@[simp] theorem isString_unplaced (t : Tree) : t.unplaced.isString = t.isString := by
  rcases t with ⟨k, g, s⟩ | _
  · rcases k with _ | k | _
    · rfl
    · cases k <;> rfl
    · rfl
  · rfl

@[simp] theorem beginsResult_unplaced (t : Tree) : t.unplaced.beginsResult = t.beginsResult := by
  rcases t with l | ⟨b, _, _, _, _⟩
  · simp only [beginsResult, ← word?_unplaced (.leaf l), ← isOperator_unplaced _ (.leaf l),
      ← isMark_unplaced _ (.leaf l)]
    rfl
  · cases b <;> rfl

@[simp] theorem beginsCase_unplaced (t : Tree) : t.unplaced.beginsCase = t.beginsCase := by
  rw [beginsCase, beginsCase, isWord_unplaced, isWord_unplaced]

mutual

theorem depth_unplaced : ∀ t : Tree, t.unplaced.depth = t.depth
  | .leaf _ => rfl
  | .group _ _ inner _ _ => congrArg (· + 1) (depthList_unplacedList inner)
termination_by structural t => t

theorem depthList_unplacedList : ∀ ts : List Tree, depthList (unplacedList ts) = depthList ts
  | [] => rfl
  | t :: ts => by
    rw [unplacedList, depthList, depthList, depth_unplaced t, depthList_unplacedList ts]
termination_by structural ts => ts

end

end Tree

namespace Forest

theorem ends_unplaced (line : Bool) (ts : Forest) :
    Forest.ends line (ts.map Tree.unplaced) = Forest.ends line ts := by
  cases ts with
  | nil => rfl
  | cons t ts => simp [ends]

theorem pair?_unplaced (ts : Forest) :
    Forest.pair? (ts.map Tree.unplaced) = Forest.pair? ts := by
  rcases ts with _ | ⟨t, _ | ⟨u, ts⟩⟩
  · rfl
  · rfl
  · simp [pair?]

theorem head?_any_unplaced {p : Tree → Bool} (hp : ∀ t, p t.unplaced = p t) (ts : Forest) :
    (ts.map Tree.unplaced).head?.any p = ts.head?.any p := by
  cases ts with
  | nil => rfl
  | cons t ts => exact hp t

theorem head?_all_unplaced {p : Tree → Bool} (hp : ∀ t, p t.unplaced = p t) (ts : Forest) :
    (ts.map Tree.unplaced).head?.all p = ts.head?.all p := by
  cases ts with
  | nil => rfl
  | cons t ts => exact hp t

theorem used_unplaced (ts rest : Forest) :
    used (ts.map Tree.unplaced) (rest.map Tree.unplaced) = (used ts rest).map Tree.unplaced := by
  simp [used]

theorem spanOf_unplaced (ts rest : Forest) : spanOf (ts.map Tree.unplaced) rest = .none := by
  have hspan : ∀ t ∈ used (ts.map Tree.unplaced) rest, t.span = .none := by
    intro t ht
    obtain ⟨u, -, rfl⟩ := List.mem_map.1 (List.mem_of_mem_take ht)
    exact u.span_unplaced
  unfold spanOf
  split
  · rfl
  · rename_i t us hused
    rw [hused] at hspan
    have hlast : (t :: us).getLastD t ∈ t :: us := by
      rw [List.getLastD_cons, List.getLastD_eq_getLast?]
      cases hu : us.getLast? with
      | none => exact List.mem_cons_self
      | some u => exact List.mem_cons_of_mem t (List.mem_of_getLast? hu)
    rw [hspan t List.mem_cons_self, hspan _ hlast]
    rfl

theorem splitOn_unplaced (m : Mark) (ts : Forest) :
    splitOn m (ts.map Tree.unplaced) = (splitOn m ts).map (List.map Tree.unplaced) := by
  induction ts with
  | nil => rfl
  | cons t ts ih =>
    rw [List.map_cons, splitOn, splitOn, ih, Tree.isMark_unplaced]
    split
    · rfl
    · cases splitOn m ts <;> rfl

theorem members_unplaced (ts : Forest) :
    members (ts.map Tree.unplaced) = (members ts).map (List.map Tree.unplaced) := by
  rw [members, members, splitOn_unplaced]
  generalize splitOn .comma ts = parts
  by_cases hp : parts = [[]]
  · subst hp
    rfl
  · have hp' : parts.map (List.map Tree.unplaced) ≠ [[]] := by
      intro h
      obtain ⟨part, rfl, hpart⟩ := List.map_eq_singleton_iff.1 h
      exact hp (by rw [List.map_eq_nil_iff.1 hpart])
    simp only [List.getLast?_map]
    rcases parts.getLast? with _ | ⟨_ | ⟨t, part⟩⟩ <;> simp [List.map_dropLast]

/-- What is read from each part of a forest. -/
theorem mapM_unplaced {α : Type} {f : α → α} {read : Forest → Option α}
    (h : ∀ ts, read (ts.map Tree.unplaced) = (read ts).map f) (parts : List Forest) :
    (parts.map (List.map Tree.unplaced)).mapM read = (parts.mapM read).map (List.map f) := by
  induction parts with
  | nil => rfl
  | cons part parts ih =>
    rw [List.map_cons, List.mapM_cons, List.mapM_cons, h, ih]
    cases read part with
    | none => rfl
    | some a => cases parts.mapM read <;> rfl

theorem all_unplaced {accepts : Forest → Bool}
    (h : ∀ ts, accepts (ts.map Tree.unplaced) = accepts ts) (parts : List Forest) :
    (parts.map (List.map Tree.unplaced)).all accepts = parts.all accepts := by
  rw [List.all_map]
  exact congrArg parts.all (funext h)

theorem isSingle_unplaced (ts : Forest) : isSingle (ts.map Tree.unplaced) = isSingle ts := by
  rw [isSingle, isSingle, members_unplaced]
  rcases members ts with _ | ⟨p, _ | ⟨q, ps⟩⟩
  · rfl
  · simp [List.getLast?_map, Option.any_map]
  · rfl

theorem skipEnd?_unplaced (ts : Forest) :
    skipEnd? (ts.map Tree.unplaced) = (skipEnd? ts).map (List.map Tree.unplaced) := by
  cases ts with
  | nil => rfl
  | cons t ts =>
    simp only [List.map_cons, skipEnd?, Tree.onNewLine_unplaced,
      Tree.isTerminator_unplaced]
    split
    · rfl
    · split <;> rfl

theorem isTerminated_unplaced (ts : Forest) (closing : Gap) :
    isTerminated (ts.map Tree.unplaced) closing = isTerminated ts closing := by
  simp [isTerminated, List.getLast?_map, Option.all_map]

theorem endsInTypeGuard_unplaced (ts : Forest) :
    endsInTypeGuard (ts.map Tree.unplaced) = endsInTypeGuard ts := by
  unfold endsInTypeGuard
  rw [← List.map_reverse]
  generalize ts.reverse = us
  rcases us with _ | ⟨⟨k, g, s⟩ | ⟨⟨⟩, g, _ | ⟨u, _ | ⟨v, inner⟩⟩, c, s⟩, _ | ⟨dot, us⟩⟩ <;> simp

end Forest

/-! ## Readers of sequences -/

/-- A reader that reads the same from trees without spans, but for spans. -/
def Reader.Placeless {α : Type} (f : α → α) (read : Reader α) : Prop :=
  ∀ ts, read (ts.map Tree.unplaced) = (read ts).map (Prod.map f (List.map Tree.unplaced))

/-- What `g` makes of a result that is read is what `g'` makes of it without spans, but for
spans. -/
theorem Reader.map_unplaced {α β : Type} {f : α → α} {k : β → β} {g g' : α × Forest → β × Forest}
    (h : ∀ a rest, g' (f a, rest.map Tree.unplaced)
      = Prod.map k (List.map Tree.unplaced) (g (a, rest))) (r : Option (α × Forest)) :
    (r.map (Prod.map f (List.map Tree.unplaced))).map g'
      = (r.map g).map (Prod.map k (List.map Tree.unplaced)) := by
  rw [Option.map_map, Option.map_map]
  exact congrArg (Option.map · r) (funext fun q => h q.1 q.2)

namespace Reader.Placeless

variable {α : Type} {f : α → α} {read : Reader α}

theorem whole (h : Placeless f read) (ts : Forest) :
    Reader.whole read (ts.map Tree.unplaced) = (Reader.whole read ts).map f := by
  rw [Reader.whole, Reader.whole, h]
  rcases read ts with _ | ⟨a, _ | ⟨t, rest⟩⟩ <;> rfl

theorem separated (h : Placeless f read) (line : Bool) (separator : Mark) :
    Placeless (List.map f) (Reader.separated line separator read) := by
  intro ts
  induction hn : ts.length using Nat.strongRecOn generalizing ts with
  | ind n ih =>
    rw [Reader.separated, h]
    conv_rhs => rw [Reader.separated]
    rcases read ts with _ | ⟨a, _ | ⟨t, rest⟩⟩
    · rfl
    · rfl
    · simp only [Option.map_some, Prod.map_apply, List.map_cons, Tree.isMark_unplaced,
        Tree.onNewLine_unplaced, List.length_map]
      split
      · split
        · rename_i hlt
          rw [ih _ (hn ▸ hlt) rest rfl]
          cases Reader.separated line separator read rest <;> rfl
        · rfl
      · rfl

theorem lines (h : Placeless f read) {stop : Tree → Bool} (hstop : ∀ t, stop t.unplaced = stop t)
    (ts : Forest) :
    Reader.lines stop read (ts.map Tree.unplaced)
      = ((Reader.lines stop read ts).map (Prod.map (List.map f) (List.map Tree.unplaced))).mapError
        (List.map Tree.unplaced) := by
  induction hn : ts.length using Nat.strongRecOn generalizing ts with
  | ind n ih =>
    rw [Reader.lines, h]
    conv_rhs => rw [Reader.lines]
    rw [Forest.head?_all_unplaced hstop]
    split
    · rfl
    · rcases read ts with _ | ⟨a, _ | ⟨t, rest⟩⟩
      · rfl
      · rfl
      · have hend := Forest.skipEnd?_unplaced (t :: rest)
        simp only [Option.map_some, Prod.map_apply, List.map_cons] at hend ⊢
        rw [hend]
        cases Forest.skipEnd? (t :: rest) with
        | none =>
          simp only [Option.map_none, hstop]
          split <;> rfl
        | some next =>
          simp only [Option.map_some, List.length_map]
          split
          · rename_i hlt
            rw [ih _ (hn ▸ hlt) next rfl]
            cases Reader.lines stop read next <;> rfl
          · rfl

theorem allLines (h : Placeless f read) (ts : Forest) :
    Reader.allLines read (ts.map Tree.unplaced) = (Reader.allLines read ts).map (List.map f) := by
  rw [Reader.allLines, Reader.allLines, h.lines fun _ => rfl]
  rcases Reader.lines (fun _ => false) read ts with _ | ⟨as, _ | ⟨t, rest⟩⟩ <;> rfl

end Reader.Placeless

/-! ## What is read -/

namespace Expr

theorem unplacedList_eq (es : List Expr) : unplacedList es = es.map unplaced := by
  induction es with
  | nil => rfl
  | cons e es ih => rw [unplacedList, ih, List.map_cons]

@[simp] theorem span_unplaced (e : Expr) : e.unplaced.span = .none := by
  cases e <;> rfl

end Expr

@[simp] theorem TypeExpr.span_unplaced (type : TypeExpr) : type.unplaced.span = .none := by
  cases type <;> rfl

namespace Stmt

theorem unplacedList_eq (ss : List Stmt) : unplacedList ss = ss.map unplaced := by
  induction ss with
  | nil => rfl
  | cons s ss ih => rw [unplacedList, ih, List.map_cons]

theorem unplacedOption_eq (s : Option Stmt) : unplacedOption s = s.map unplaced := by
  cases s <;> rfl

@[simp] theorem span_unplaced (s : Stmt) : s.unplaced.span = .none := by
  cases s with
  | block b =>
    cases b
    rfl
  | _ => rfl

end Stmt

/-! ## The contents of brackets -/

/-- Readers for the contents of brackets that read the same without spans, but for spans. -/
structure Interior.Placeless (I : Interior) : Prop where
  expr : ∀ ts, I.expr (ts.map Tree.unplaced) = (I.expr ts).map Expr.unplaced
  index : ∀ ts, I.index (ts.map Tree.unplaced) = I.index ts
  args : ∀ ts, I.args (ts.map Tree.unplaced) = (I.args ts).map (List.map Expr.unplaced)
  typedArgs : ∀ ts, I.typedArgs (ts.map Tree.unplaced)
    = (I.typedArgs ts).map (List.map Expr.unplaced)
  type : ∀ ts, I.type (ts.map Tree.unplaced) = (I.type ts).map TypeExpr.unplaced
  instantiated : ∀ ts, I.instantiated (ts.map Tree.unplaced) = I.instantiated ts
  types : ∀ ts, I.types (ts.map Tree.unplaced) = I.types ts
  typeArgs : ∀ ts, I.typeArgs (ts.map Tree.unplaced) = I.typeArgs ts
  params : ∀ ts, I.params (ts.map Tree.unplaced) = (I.params ts).map (List.map Field.unplaced)
  typeParams : ∀ ts, I.typeParams (ts.map Tree.unplaced) = I.typeParams ts
  fields : ∀ ts, I.fields (ts.map Tree.unplaced) = I.fields ts
  elements : ∀ ts, I.elements (ts.map Tree.unplaced) = I.elements ts
  literal : ∀ ts, I.literal (ts.map Tree.unplaced) = I.literal ts
  block : ∀ ts, I.block (ts.map Tree.unplaced) = (I.block ts).map (List.map Stmt.unplaced)
  valueCases : ∀ ts, I.valueCases (ts.map Tree.unplaced) = I.valueCases ts
  typeCases : ∀ ts, I.typeCases (ts.map Tree.unplaced) = I.typeCases ts
  commCases : ∀ ts, I.commCases (ts.map Tree.unplaced) = I.commCases ts
  valueSpecs : ∀ kind ts closing, I.valueSpecs kind (ts.map Tree.unplaced) closing
    = (I.valueSpecs kind ts closing).map (List.map ValueSpec.unplaced)
  typeSpecs : ∀ ts closing, I.typeSpecs (ts.map Tree.unplaced) closing = I.typeSpecs ts closing
  importSpecs : ∀ ts, I.importSpecs (ts.map Tree.unplaced) = I.importSpecs ts

end Recast
