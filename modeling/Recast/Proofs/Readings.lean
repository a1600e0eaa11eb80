import Recast.Grammar.File
import Recast.Proofs.Readers

/-!
# What readings are made of

A reader that finds a statement with parts of its own, or a function, finds these by shorter
readings. There is one lemma for each of these readers: it says from which readings a result comes,
and at which trees they begin and end. The lemmas say nothing about what the parts are, so what is
kept from the parts to the whole (spans, names, clauses) is proved from them without a second look
at the readers.
-/

namespace Recast

variable {I : Interior}

/-! ## Blocks and headers -/

theorem readBlock_eq_some {ts rest : Forest} {b : Block} (h : readBlock I ts = some (b, rest)) :
    ∃ gap inner closing span stmts, ts = .group .brace gap inner closing span :: rest ∧
      I.block inner = some stmts ∧ b = .mk stmts span := by
  unfold readBlock at h
  split at h
  · obtain ⟨stmts, hs, he⟩ := Option.map_eq_some_iff.1 h
    cases he
    exact ⟨_, _, _, _, stmts, rfl, hs, rfl⟩
  · cases h

/-! ## Conditionals -/

/-- A conditional after its first word: a header and a body, and `else` with another conditional or
a block if there is one. -/
inductive Conditional (I : Interior) : Forest → Stmt → Forest → Prop
  | alone {t : Tree} {ts rest₁ rest : Forest} {init : Option Stmt} {test : Expr} {body : Block}
    (hh : readHeader I ts = some (init, test, rest₁)) (hb : readBlock I rest₁ = some (body, rest)) :
    Conditional I (t :: ts) (.cond init test body none (Forest.spanOf (t :: ts) rest)) rest
  | chained {t word : Tree} {ts rest₁ next rest : Forest} {init : Option Stmt} {test : Expr}
    {body : Block} {other : Stmt} (hh : readHeader I ts = some (init, test, rest₁))
    (hb : readBlock I rest₁ = some (body, word :: next)) (ho : Conditional I next other rest) :
    Conditional I (t :: ts) (.cond init test body (some other) (Forest.spanOf (t :: ts) rest)) rest
  | closed {t word : Tree} {ts rest₁ next rest : Forest} {init : Option Stmt} {test : Expr}
    {body other : Block} (hh : readHeader I ts = some (init, test, rest₁))
    (hb : readBlock I rest₁ = some (body, word :: next))
    (ho : readBlock I next = some (other, rest)) :
    Conditional I (t :: ts)
      (.cond init test body (some (.block other)) (Forest.spanOf (t :: ts) rest)) rest

theorem conditional_of_readIf {ts rest : Forest} {s : Stmt} (h : readIf I ts = some (s, rest)) :
    Conditional I ts s rest := by
  induction hn : ts.length using Nat.strongRecOn generalizing ts s rest with
  | _ n ih =>
    rw [readIf] at h
    split at h
    · cases h
    · rename_i init test rest₁ hh
      split at h
      · cases h
      · rename_i body rest₂ hb
        cases ts with
        | nil => cases hh
        | cons t ts =>
          dsimp only at h
          split at h
          · split at h
            · split at h
              · split at h
                · rename_i hlt
                  obtain ⟨⟨other, rest₃⟩, hr, he⟩ := Option.map_eq_some_iff.1 h
                  cases he
                  exact .chained hh hb (ih _ (hn ▸ hlt) hr rfl)
                · cases h
              · obtain ⟨⟨other, rest₃⟩, hr, he⟩ := Option.map_eq_some_iff.1 h
                cases he
                exact .closed hh hb hr
            · cases h
              exact .alone hh hb
          · cases h
            exact .alone hh hb

/-! ## Loops -/

/-- The loop with a header and a body. One over a range has no counterpart. -/
def LoopHeader.stmt (body : Block) (span : Span) : LoopHeader → Stmt
  | .clauses init test post => .loop init test post body span
  | .range => .unsupported span

theorem readFor_eq_some {ts rest : Forest} {s : Stmt} (h : readFor I ts = some (s, rest)) :
    ∃ t us header rest₁ body, ts = t :: us ∧ LoopHeader.read I us = some (header, rest₁) ∧
      readBlock I rest₁ = some (body, rest) ∧ s = header.stmt body (Forest.spanOf ts rest) := by
  unfold readFor at h
  obtain ⟨⟨header, rest₁⟩, hh, hr⟩ := Option.bind_eq_some_iff.1 h
  obtain ⟨⟨body, rest₂⟩, hb, hg⟩ := Option.bind_eq_some_iff.1 hr
  cases ts with
  | nil => cases hh
  | cons t us =>
    dsimp only at hg
    split at hg <;> cases hg
    · exact ⟨t, us, _, rest₁, body, rfl, hh, hb, rfl⟩
    · exact ⟨t, us, .range, rest₁, body, rfl, hh, hb, rfl⟩

/-! ## Declarations -/

theorem readValueDecl_eq_some {kind : DeclKind} {ts rest : Forest} {p : Phrase}
    (h : readValueDecl I kind ts = some (p, rest)) :
    ∃ t us specs, ts = t :: us ∧ p.stmt = .decl kind specs (Forest.spanOf ts rest) ∧
      ((∃ gap inner closing span, us = .group .paren gap inner closing span :: rest ∧
          I.valueSpecs kind inner closing = some specs) ∨
        ∃ spec, specs = [spec] ∧ ValueSpec.read I kind us = some (spec, rest)) := by
  cases ts with
  | nil => cases h
  | cons t us =>
    unfold readValueDecl at h
    dsimp only [Forest, List.tail_cons] at h
    split at h
    · obtain ⟨specs, hs, he⟩ := Option.map_eq_some_iff.1 h
      cases he
      exact ⟨t, _, specs, rfl, rfl, .inl ⟨_, _, _, _, rfl, hs⟩⟩
    · obtain ⟨⟨spec, rest'⟩, hs, he⟩ := Option.map_eq_some_iff.1 h
      cases he
      exact ⟨t, us, [spec], rfl, rfl, .inr ⟨spec, rfl, hs⟩⟩

/-! ## Lists of statements -/

theorem isLoneLabel_eq_true {stop : Tree → Bool} {ts : Forest} (h : isLoneLabel stop ts = true) :
    ∃ a b rest, ts = a :: b :: rest := by
  unfold isLoneLabel at h
  obtain ⟨h, -⟩ := Bool.and_eq_true_iff.1 h
  obtain ⟨h, -⟩ := Bool.and_eq_true_iff.1 h
  unfold beginsWithLabel at h
  split at h
  · exact ⟨_, _, _, rfl⟩
  · cases h

/-- What is read at a place in a list of statements: a statement, or a label with none. -/
def readListed (I : Interior) (stop : Tree → Bool) : Reader Phrase := fun ts =>
  if isLoneLabel stop ts then some (.opaquely .labeled ts (ts.drop 2), ts.drop 2)
  else readStmt I ts

theorem readListed_cases {stop : Tree → Bool} {ts rest : Forest} {p : Phrase}
    (h : readListed I stop ts = some (p, rest)) :
    readStmt I ts = some (p, rest) ∨
      ∃ a b, ts = a :: b :: rest ∧ p = .opaquely .labeled (a :: b :: rest) rest := by
  unfold readListed at h
  split at h
  · rename_i hlabel
    obtain ⟨a, b, rest₁, rfl⟩ := isLoneLabel_eq_true hlabel
    cases h
    exact .inr ⟨a, b, rfl, rfl⟩
  · exact .inl h

theorem readList_listed {stop : Tree → Bool} {ts rest : Forest} {ps : List Phrase}
    (h : readList I stop ts = .ok (ps, rest)) : Reader.Listed (readListed I stop) ts ps rest := by
  unfold readList at h
  split at h
  · cases h
  · exact Reader.listed_of_lines h

theorem readStmts_eq_some {ts : Forest} {ss : List Stmt} (h : readStmts I ts = some ss) :
    ∃ ps, readList I (fun _ => false) ts = .ok (ps, []) ∧
      ss = (ps.filter fun p => p.kind != .empty).map Phrase.stmt := by
  unfold readStmts at h
  split at h
  · rename_i ps hl
    cases h
    exact ⟨ps, hl, rfl⟩
  · cases h

/-! ## Functions -/

theorem readBody_eq_some {ts rest : Forest} {body : Option Block}
    (h : readBody I ts = some (body, rest)) :
    (body = none ∧ ts = rest) ∨ ∃ b, body = some b ∧ readBlock I ts = some (b, rest) := by
  unfold readBody at h
  split at h
  · split at h
    · cases h
    · obtain ⟨⟨b, rest₁⟩, hb, he⟩ := Option.map_eq_some_iff.1 h
      cases he
      exact .inr ⟨b, rfl, hb⟩
  · cases h
    exact .inl ⟨rfl, rfl⟩

theorem readSignature_eq_some {ts rest : Forest} {params : FieldList}
    {results : Option FieldList} {body : Option Block}
    (h : readSignature I ts = some ((params, results, body), rest)) :
    ∃ gap inner closing rest₀ rest₁, ts = .group .paren gap inner closing params.span :: rest₀ ∧
      I.params inner = some params.fields ∧ readResults I rest₀ = some (results, rest₁) ∧
      readBody I rest₁ = some (body, rest) := by
  unfold readSignature at h
  split at h
  · obtain ⟨fields, hf, h⟩ := Option.bind_eq_some_iff.1 h
    obtain ⟨⟨results', rest₁⟩, hr, h⟩ := Option.bind_eq_some_iff.1 h
    obtain ⟨⟨body', rest₂⟩, hb, h⟩ := Option.bind_eq_some_iff.1 h
    cases h
    exact ⟨_, _, _, _, rest₁, rfl, hf, hr, hb⟩
  · cases h

/-- Between the name and the signature stand the type parameters, which are not kept. -/
theorem readFunc_eq_some {ts rest : Forest} {f : Func} (h : readFunc I ts = some (f, rest)) :
    ∃ t name skipped rest₁, ts = t :: name :: (skipped ++ rest₁) ∧ name.ident? = some f.name ∧
      readSignature I rest₁ = some ((f.params, f.results, f.body), rest) ∧
      f.span = Forest.spanOf ts rest := by
  cases ts with
  | nil => cases h
  | cons t ts =>
    unfold readFunc at h
    dsimp only [List.tail_cons] at h
    split at h
    · rename_i u us
      obtain ⟨name, hname, h⟩ := Option.bind_eq_some_iff.1 h
      have hsignature : ∀ (skipped : Forest) {rest₁ : Forest}, us = skipped ++ rest₁ →
          (readSignature I rest₁).bind (fun q => some ((⟨name, q.1.1, q.1.2.1, q.1.2.2,
            Forest.spanOf (t :: u :: us) q.2⟩ : Func), q.2)) = some (f, rest) →
          ∃ t' name' skipped rest₁, t :: u :: us = t' :: name' :: (skipped ++ rest₁) ∧
            name'.ident? = some f.name ∧
            readSignature I rest₁ = some ((f.params, f.results, f.body), rest) ∧
            f.span = Forest.spanOf (t :: u :: us) rest := by
        intro skipped rest₁ hus h
        obtain ⟨⟨⟨params, results, body⟩, rest₂⟩, hs, h⟩ := Option.bind_eq_some_iff.1 h
        cases h
        exact ⟨t, u, skipped, rest₁, by rw [hus], hname, hs, rfl⟩
      split at h
      · split at h
        · exact hsignature [_] rfl h
        · cases h
      · exact hsignature [] rfl h
    · cases h

/-! ## Items -/

/-- Of the readings of an item only that of a function is kept; of all others only the kind and the
span are. -/
theorem readItem_cases {ts rest : Forest} {i : Item} (h : readItem I ts = some (i, rest)) :
    (∃ f, i = .func f ∧ readFunc I ts = some (f, rest)) ∨ ∃ kind span, i = .other kind span := by
  have hphrase : ∀ {r : Option (Phrase × Forest)},
      r.map (fun q => (q.1.toItem, q.2)) = some (i, rest) → ∃ kind span, i = .other kind span := by
    intro r h
    obtain ⟨q, -, he⟩ := Option.map_eq_some_iff.1 h
    cases he
    exact ⟨_, _, rfl⟩
  unfold readItem at h
  dsimp only at h
  split at h
  · cases h
  · split at h
    · unfold readPackage at h
      split at h
      · split at h <;> cases h
        exact .inr ⟨_, _, rfl⟩
      · cases h
    · exact .inr (hphrase h)
    · split at h
      · split at h
        · unfold readMethod at h
          split at h
          · obtain ⟨fs, -, h⟩ := Option.bind_eq_some_iff.1 h
            obtain ⟨w, -, h⟩ := Option.bind_eq_some_iff.1 h
            obtain ⟨q, -, h⟩ := Option.bind_eq_some_iff.1 h
            cases h
            exact .inr ⟨_, _, rfl⟩
          · cases h
        · exact .inr (hphrase h)
      · exact .inr (hphrase h)
      · obtain ⟨⟨f, rest₁⟩, hf, he⟩ := Option.map_eq_some_iff.1 h
        cases he
        exact .inl ⟨f, rfl, hf⟩
    · exact .inr (hphrase h)

theorem File.readItems_listed {ts : Forest} {items : List Item} (h : readItems ts = .ok items) :
    ∃ rest, Reader.Listed (readItem (.ofDepth (Tree.depthList ts))) ts items rest := by
  unfold readItems at h
  cases hl : Reader.lines (fun _ => false) (readItem (.ofDepth (Tree.depthList ts))) ts with
  | error rest => simp [hl, Except.map] at h
  | ok q =>
    obtain ⟨is, rest⟩ := q
    simp only [hl, Except.map, Except.ok.injEq] at h
    subst h
    exact ⟨rest, Reader.listed_of_lines hl⟩

end Recast
