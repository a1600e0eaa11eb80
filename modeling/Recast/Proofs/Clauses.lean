import Recast.Proofs.ReadFile

/-!
# The clauses of loops

What may stand in a header is read as a simple statement, so it is an assignment, a step by one or a
statement without a counterpart (`Simple.read_isClause`). From that follows what the clauses of
every loop of a file are, at every depth (`File.funcs_clauses`).
-/

namespace Recast

variable {I : Interior}

/-! ## Simple statements -/

/-- The statements that are read where a simple statement stands. -/
def Stmt.isClause : Stmt → Bool
  | .assign .. | .unsupported _ => true
  | .step _ op _ => op == .inc || op == .dec
  | .ret .. | .decl .. | .cond .. | .loop .. | .block _ => false

/-- The statements that no specification and no other statement is in. -/
def Stmt.isFlat : Stmt → Bool
  | .ret .. | .assign .. | .step .. | .unsupported _ => true
  | .decl .. | .cond .. | .loop .. | .block _ => false

theorem Stmt.isFlat_of_isClause {s : Stmt} (h : s.isClause = true) : s.isFlat = true := by
  cases s with
  | assign | step | unsupported => rfl
  | ret | decl | cond | loop | block => cases h

theorem Simple.isClause_of_single {lhs : List Expr} {f : Expr → Simple × Forest}
    {r : Simple × Forest} (hf : ∀ e, (f e).1.stmt.isClause = true)
    (h : (match lhs with
      | [e] => some (f e)
      | _ => none) = some r) : r.1.stmt.isClause = true := by
  obtain ⟨e, -, h⟩ := single_eq_some h
  cases h
  exact hf e

theorem Simple.readAfter_isClause {q : Place} {ts rest rest' : Forest} {lhs : List Expr}
    {s : Simple} (h : readAfter I q ts lhs rest = some (s, rest')) : s.stmt.isClause = true := by
  unfold readAfter at h
  dsimp only at h
  split at h
  · exact isClause_of_single (fun _ => rfl) h
  · split at h
    · exact isClause_of_single (fun _ => rfl) h
    · exact isClause_of_single (fun _ => rfl) h
    · split at h
      · obtain ⟨⟨e, rest₁⟩, -, he⟩ := Option.map_eq_some_iff.1 h
        cases he
        rfl
      · cases h
    · split at h
      · split at h
        · obtain ⟨⟨rs, rest₁⟩, -, he⟩ := Option.map_eq_some_iff.1 h
          cases he
          rfl
        · exact isClause_of_single (fun _ => rfl) h
      · exact isClause_of_single (fun _ => rfl) h

theorem Simple.read_isClause {p q : Place} {ts rest : Forest} {s : Simple}
    (h : read I p q ts = some (s, rest)) : s.stmt.isClause = true := by
  obtain ⟨⟨lhs, rest'⟩, -, hr⟩ := Option.bind_eq_some_iff.1 h
  exact readAfter_isClause hr

/-! ## Headers -/

/-- The initializer of a conditional. -/
theorem readHeader_isClause {init : Option Stmt} {test : Expr} {ts rest : Forest}
    (h : readHeader I ts = some (init, test, rest)) : ∀ s ∈ init, s.isClause = true := by
  obtain ⟨⟨first, rest₁⟩, hf, hr⟩ := Option.bind_eq_some_iff.1 h
  dsimp only at hr
  split at hr
  · split at hr
    · obtain ⟨⟨e, rest₂⟩, -, hr⟩ := Option.bind_eq_some_iff.1 hr
      cases hr
      intro s hs
      cases hs
      exact Simple.read_isClause hf
    · split at hr
      · cases hr
        simp
      · cases hr
  · cases hr

namespace LoopHeader

/-- The clauses of a header are simple statements. -/
def HasClauses : LoopHeader → Prop
  | .clauses init _ post => (∀ s ∈ init, s.isClause = true) ∧ ∀ s ∈ post, s.isClause = true
  | .range => True

theorem readRange_hasClauses {ts rest : Forest} {header : LoopHeader}
    (h : readRange I ts = some (header, rest)) : header.HasClauses := by
  unfold readRange at h
  split at h
  · split at h
    · obtain ⟨⟨e, rest₁⟩, -, he⟩ := Option.map_eq_some_iff.1 h
      cases he
      trivial
    · cases h
  · cases h

theorem readPost_hasClauses {init : Option Stmt} {test : Option Expr} {ts rest : Forest}
    {header : LoopHeader} (hi : ∀ s ∈ init, s.isClause = true)
    (h : (do
      guard (ts.head?.any (Tree.isMark .semicolon))
      match ts.tail with
      | .group .brace gap inner closing span :: rest =>
        return (.clauses init test none, .group .brace gap inner closing span :: rest)
      | rest =>
        let (post, rest) ← Simple.read I .header .header rest
        return (.clauses init test (some post.stmt), rest)) = some (header, rest)) :
    header.HasClauses := by
  obtain ⟨u, -, hr⟩ := Option.bind_eq_some_iff.1 h
  dsimp only at hr
  split at hr
  · cases hr
    exact ⟨hi, by simp⟩
  · obtain ⟨⟨post, rest₂⟩, hpost, hr⟩ := Option.bind_eq_some_iff.1 hr
    cases hr
    refine ⟨hi, fun s hs => ?_⟩
    cases hs
    exact Simple.read_isClause hpost

theorem readClauses_hasClauses {init : Option Stmt} {ts rest : Forest} {header : LoopHeader}
    (hi : ∀ s ∈ init, s.isClause = true) (h : readClauses I init ts = some (header, rest)) :
    header.HasClauses := by
  unfold readClauses at h
  split at h
  · exact readPost_hasClauses hi h
  · obtain ⟨⟨test, rest₁⟩, -, hr⟩ := Option.bind_eq_some_iff.1 h
    exact readPost_hasClauses hi hr

theorem read_hasClauses {ts rest : Forest} {header : LoopHeader}
    (h : read I ts = some (header, rest)) : header.HasClauses := by
  unfold read at h
  split at h
  · cases h
  · cases h
    exact ⟨by simp, by simp⟩
  · split at h
    · exact readRange_hasClauses h
    · split at h
      · exact readClauses_hasClauses (by simp) h
      · obtain ⟨⟨lhs, rest₁⟩, -, hr⟩ := Option.bind_eq_some_iff.1 h
        dsimp only at hr
        split at hr
        · exact readRange_hasClauses hr
        · obtain ⟨⟨first, rest₂⟩, hf, hg⟩ := Option.bind_eq_some_iff.1 hr
          have hfirst : ∀ s ∈ some first.stmt, s.isClause = true := by
            intro s hs
            cases hs
            exact Simple.readAfter_isClause hf
          dsimp only at hg
          split at hg
          · exact readClauses_hasClauses hfirst hg
          · split at hg
            · cases hg
              exact ⟨by simp, by simp⟩
            · cases hg

end LoopHeader

/-! ## Statements in which there is no other -/

theorem readTypeDecl_isFlat {ts rest : Forest} {p : Phrase}
    (h : readTypeDecl I ts = some (p, rest)) : p.stmt.isFlat = true := by
  unfold readTypeDecl at h
  split at h
  · split at h <;> cases h
    rfl
  · obtain ⟨q, -, he⟩ := Option.map_eq_some_iff.1 h
    cases he
    rfl

theorem readReturn_isFlat {ts rest : Forest} {p : Phrase}
    (h : readReturn I ts = some (p, rest)) : p.stmt.isFlat = true := by
  unfold readReturn at h
  split at h
  · obtain ⟨q, -, he⟩ := Option.map_eq_some_iff.1 h
    cases he
    rfl
  · cases h
    rfl

theorem readJump_isFlat {kind : ItemKind} {ts rest : Forest} {p : Phrase}
    (h : readJump kind ts = some (p, rest)) : p.stmt.isFlat = true := by
  unfold readJump at h
  split at h
  · split at h <;> cases h <;> rfl
  · cases h
    rfl

theorem readSwitch_isFlat {ts rest : Forest} {p : Phrase}
    (h : readSwitch I ts = some (p, rest)) : p.stmt.isFlat = true := by
  unfold readSwitch at h
  obtain ⟨⟨overTypes, rest₁⟩, -, hr⟩ := Option.bind_eq_some_iff.1 h
  dsimp only at hr
  split at hr
  · split at hr
    · obtain ⟨u, -, hr⟩ := Option.bind_eq_some_iff.1 hr
      cases hr
      rfl
    · obtain ⟨u, -, hr⟩ := Option.bind_eq_some_iff.1 hr
      cases hr
      rfl
  · cases hr

theorem readSelect_isFlat {ts rest : Forest} {p : Phrase}
    (h : readSelect I ts = some (p, rest)) : p.stmt.isFlat = true := by
  unfold readSelect at h
  split at h
  · split at h <;> cases h
    rfl
  · cases h

/-- Where a statement comes from that has parts of its own. -/
inductive StmtReading (I : Interior) (ts : Forest) (p : Phrase) (rest : Forest) : Prop
  | flat (h : p.stmt.isFlat = true)
  | decl {kind : DeclKind} (h : readValueDecl I kind ts = some (p, rest))
  | cond (h : readIf I ts = some (p.stmt, rest))
  | loop (h : readFor I ts = some (p.stmt, rest))
  | block {b : Block} (hb : p.stmt = .block b) (h : readBlock I ts = some (b, rest))

theorem stmtReading_of_readWorded? {w : String} {ts rest : Forest} {p : Phrase}
    (h : readWorded? I w ts = some (some (p, rest))) : StmtReading I ts p rest := by
  have hexpr : ∀ {kind : ItemKind} {r : Option (Expr × Forest)},
      r.map (fun q => (Phrase.opaquely kind ts q.2, q.2)) = some (p, rest) →
      StmtReading I ts p rest := by
    intro kind r h
    obtain ⟨q, -, he⟩ := Option.map_eq_some_iff.1 h
    cases he
    exact .flat rfl
  unfold readWorded? at h
  split at h
  · exact .decl (Option.some.inj h)
  · exact .decl (Option.some.inj h)
  · exact .flat (readTypeDecl_isFlat (Option.some.inj h))
  · exact .flat (readReturn_isFlat (Option.some.inj h))
  · exact hexpr (Option.some.inj h)
  · exact hexpr (Option.some.inj h)
  · obtain ⟨⟨s, rest₁⟩, hr, he⟩ := Option.map_eq_some_iff.1 (Option.some.inj h)
    cases he
    exact .cond hr
  · obtain ⟨⟨s, rest₁⟩, hr, he⟩ := Option.map_eq_some_iff.1 (Option.some.inj h)
    cases he
    exact .loop hr
  · exact .flat (readSwitch_isFlat (Option.some.inj h))
  · exact .flat (readSelect_isFlat (Option.some.inj h))
  · cases h
    exact .flat rfl
  · exact .flat (readJump_isFlat (Option.some.inj h))
  · exact .flat (readJump_isFlat (Option.some.inj h))
  · split at h
    · split at h
      · cases h
        exact .flat rfl
      · cases h
    · cases h
  · cases h

theorem stmtReading_of_readStmt {ts rest : Forest} {p : Phrase}
    (h : readStmt I ts = some (p, rest)) : StmtReading I ts p rest := by
  cases ts with
  | nil => cases h
  | cons t ts =>
    unfold readStmt at h
    split at h
    · cases h
      exact .flat rfl
    · split at h
      · -- What a label stands before is not kept.
        split at h
        · obtain ⟨⟨q, rest₁⟩, -, he⟩ := Option.map_eq_some_iff.1 h
          cases he
          exact .flat rfl
        · cases h
      · split at h
        · rename_i r hr
          subst h
          obtain ⟨w, -, hw⟩ := Option.bind_eq_some_iff.1 hr
          exact stmtReading_of_readWorded? hw
        · split at h
          · obtain ⟨⟨b, rest₁⟩, hb, he⟩ := Option.map_eq_some_iff.1 h
            cases he
            exact .block rfl hb
          · obtain ⟨⟨s, rest₁⟩, hs, he⟩ := Option.map_eq_some_iff.1 h
            cases he
            exact .flat (Stmt.isFlat_of_isClause (Simple.read_isClause hs))

/-! ## The loops of a tree -/

mutual

/-- The loops in a statement at every depth, in the order in which they are written. -/
def Stmt.loops : Stmt → List Stmt
  | .loop init test post body span => .loop init test post body span :: body.loops
  | .cond _ _ body other _ => body.loops ++ Stmt.optionLoops other
  | .block body => body.loops
  | .ret .. | .assign .. | .decl .. | .step .. | .unsupported _ => []
termination_by structural s => s

def Stmt.optionLoops : Option Stmt → List Stmt
  | none => []
  | some s => s.loops
termination_by structural s => s

def Stmt.listLoops : List Stmt → List Stmt
  | [] => []
  | s :: ss => s.loops ++ Stmt.listLoops ss
termination_by structural ss => ss

def Block.loops : Block → List Stmt
  | .mk ss _ => Stmt.listLoops ss
termination_by structural b => b

end

/-- The loops of a function. -/
def Func.loops (f : Func) : List Stmt := f.body.elim [] Block.loops

/-- The clauses of a loop are simple statements. -/
def Stmt.HasClauses : Stmt → Prop
  | .loop init test post _ _ => (LoopHeader.clauses init test post).HasClauses
  | _ => True

/-- The readers for the contents of brackets find loops whose clauses are simple statements. -/
def Interior.FindsClauses (I : Interior) : Prop :=
  ∀ {ts : Forest} {ss : List Stmt}, I.block ts = some ss → ∀ l ∈ Stmt.listLoops ss, l.HasClauses

/-! ## Lists of phrases -/

/-- What is kept from a forest to what is left of it gives a property of each phrase of a list. -/
theorem Reader.Listed.forall_of {α : Type} {K : Forest → Prop} {S : α → Prop} {read : Reader α}
    (hread : ∀ {ts a rest}, read ts = some (a, rest) → K ts → S a ∧ K rest)
    (hskip : ∀ {us rest : Forest}, K (us ++ rest) → K rest) {ts rest : Forest} {as : List α}
    (hl : Listed read ts as rest) (hK : K ts) : ∀ a ∈ as, S a := by
  induction hl with
  | nil => exact List.forall_mem_nil _
  | last ha => exact List.forall_mem_singleton.2 (hread ha hK).1
  | cons ha _ ih =>
    obtain ⟨hS, hrest⟩ := hread ha hK
    exact List.forall_mem_cons.2 ⟨hS, ih (hskip hrest)⟩

/-- What holds of a phrase that is read holds of all phrases of a list. -/
theorem Reader.Listed.forall_of_read {α : Type} {S : α → Prop} {read : Reader α}
    (h : ∀ {ts a rest}, read ts = some (a, rest) → S a) {ts rest : Forest} {as : List α}
    (hl : Listed read ts as rest) : ∀ a ∈ as, S a :=
  hl.forall_of (K := fun _ => True) (fun ha _ => ⟨h ha, trivial⟩) (fun _ => trivial) trivial

/-! ## Statements -/

theorem Stmt.loops_of_isFlat {s : Stmt} (h : s.isFlat = true) : s.loops = [] := by
  cases s with
  | ret | assign | step | unsupported => rfl
  | decl | cond | loop | block => cases h

theorem readBlock_clauses (hI : I.FindsClauses) {ts rest : Forest} {b : Block}
    (h : readBlock I ts = some (b, rest)) : ∀ l ∈ b.loops, l.HasClauses := by
  obtain ⟨_, _, _, _, stmts, -, hs, rfl⟩ := readBlock_eq_some h
  exact hI hs

theorem Conditional.clauses (hI : I.FindsClauses) {ts rest : Forest} {s : Stmt}
    (h : Conditional I ts s rest) : ∀ l ∈ s.loops, l.HasClauses := by
  induction h with
  | alone _ hb => exact List.forall_mem_append.2 ⟨readBlock_clauses hI hb, List.forall_mem_nil _⟩
  | chained _ hb _ ih => exact List.forall_mem_append.2 ⟨readBlock_clauses hI hb, ih⟩
  | closed _ hb ho =>
    exact List.forall_mem_append.2 ⟨readBlock_clauses hI hb, readBlock_clauses hI ho⟩

theorem readFor_clauses (hI : I.FindsClauses) {ts rest : Forest} {s : Stmt}
    (h : readFor I ts = some (s, rest)) : ∀ l ∈ s.loops, l.HasClauses := by
  obtain ⟨t, us, header, rest₁, body, rfl, hh, hb, rfl⟩ := readFor_eq_some h
  cases header with
  | clauses init test post =>
    exact List.forall_mem_cons.2 ⟨LoopHeader.read_hasClauses hh, readBlock_clauses hI hb⟩
  | range => exact List.forall_mem_nil _

theorem readStmt_clauses (hI : I.FindsClauses) {ts rest : Forest} {p : Phrase}
    (h : readStmt I ts = some (p, rest)) : ∀ l ∈ p.stmt.loops, l.HasClauses := by
  cases stmtReading_of_readStmt h with
  | flat h =>
    rw [Stmt.loops_of_isFlat h]
    exact List.forall_mem_nil _
  | decl h =>
    obtain ⟨_, _, _, -, hstmt, -⟩ := readValueDecl_eq_some h
    rw [hstmt]
    exact List.forall_mem_nil _
  | cond h => exact (conditional_of_readIf h).clauses hI
  | loop h => exact readFor_clauses hI h
  | block hb h =>
    rw [hb]
    exact readBlock_clauses hI h

theorem Stmt.mem_listLoops {ss : List Stmt} {l : Stmt} :
    l ∈ Stmt.listLoops ss ↔ ∃ s ∈ ss, l ∈ s.loops := by
  induction ss with
  | nil => simp [Stmt.listLoops]
  | cons s ss ih => rw [Stmt.listLoops, List.mem_append, ih, List.exists_mem_cons_iff]

theorem readListed_clauses (hI : I.FindsClauses) {stop : Tree → Bool} {ts rest : Forest}
    {p : Phrase} (h : readListed I stop ts = some (p, rest)) :
    ∀ l ∈ p.stmt.loops, l.HasClauses := by
  rcases readListed_cases h with h | ⟨a, b, rfl, rfl⟩
  · exact readStmt_clauses hI h
  · exact List.forall_mem_nil _

theorem readStmts_clauses (hI : I.FindsClauses) {ts : Forest} {ss : List Stmt}
    (h : readStmts I ts = some ss) : ∀ l ∈ Stmt.listLoops ss, l.HasClauses := by
  obtain ⟨ps, hps, rfl⟩ := readStmts_eq_some h
  have hall := (readList_listed hps).forall_of_read (readListed_clauses hI)
  intro l hl
  obtain ⟨s, hs, hl⟩ := Stmt.mem_listLoops.1 hl
  obtain ⟨p, hmem, rfl⟩ := List.mem_map.1 hs
  exact hall p (List.mem_of_mem_filter hmem) l hl

/-! ## Files -/

namespace Interior

theorem findsClauses_ofDepth (n : Nat) : (Interior.ofDepth n).FindsClauses := by
  induction n with
  | zero =>
    intro ts ss h
    cases h
  | succ n ih => exact readStmts_clauses ih

end Interior

theorem readBody_clauses (hI : I.FindsClauses) {ts rest : Forest} {body : Option Block}
    (h : readBody I ts = some (body, rest)) : ∀ l ∈ body.elim [] Block.loops, l.HasClauses := by
  rcases readBody_eq_some h with ⟨rfl, -⟩ | ⟨b, rfl, hb⟩
  · exact List.forall_mem_nil _
  · exact readBlock_clauses hI hb

theorem readFunc_clauses (hI : I.FindsClauses) {ts rest : Forest} {f : Func}
    (h : readFunc I ts = some (f, rest)) : ∀ l ∈ f.loops, l.HasClauses := by
  obtain ⟨t, name, skipped, rest₁, -, -, hs, -⟩ := readFunc_eq_some h
  obtain ⟨_, _, _, _, _, -, -, -, hb⟩ := readSignature_eq_some hs
  exact readBody_clauses hI hb

/-- Of the items only functions have loops. -/
def Item.loops : Item → List Stmt
  | .func f => f.loops
  | .other .. => []

theorem readItem_clauses (hI : I.FindsClauses) {ts rest : Forest} {i : Item}
    (h : readItem I ts = some (i, rest)) : ∀ l ∈ i.loops, l.HasClauses := by
  rcases readItem_cases h with ⟨f, rfl, hf⟩ | ⟨kind, span, rfl⟩
  · exact readFunc_clauses hI hf
  · exact List.forall_mem_nil _

namespace File

/-- The clauses of the loops of a file that is read are simple statements. -/
theorem funcs_clauses {src : Source} {file : File} (h : read src = .ok file) :
    ∀ f ∈ file.funcs, ∀ l ∈ f.loops, l.HasClauses := by
  obtain ⟨-, ps, ts, items, -, -, hitems, rfl⟩ := read_eq_ok_iff.1 h
  obtain ⟨rest, hl⟩ := readItems_listed hitems
  have hall := hl.forall_of_read (readItem_clauses (Interior.findsClauses_ofDepth _))
  intro f hf
  exact hall _ (mem_funcs.1 hf)

end File

end Recast
