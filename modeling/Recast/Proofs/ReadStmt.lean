import Recast.Grammar.Stmt
import Recast.Proofs.ReadDecl

/-!
# Reading statements

The parts that the readers of statements find, up to the statements of a block
(`readStmts_has`). A statement that is kept as a whole only has to take one tree or more; all others
have their expressions, blocks and statements in the order in which these are written, a loop with
its post statement before its body.
-/

namespace Recast

open Forest (hull Along Yields Has)

variable {src : Source} {P : Expr → Prop} {I : Interior}

/-! ## Simple statements -/

namespace Simple

def part (src : Source) (P : Expr → Prop) : Simple → Part
  | .expr e => e.part P
  | .phrase p => p.part src P

theorem toPhrase_yields {s : Simple} {us : Forest} (h : Yields src (s.part src P) us) :
    Yields src (s.toPhrase.part src P) us := by
  cases s with
  | expr e => exact h.unsupported P
  | phrase p => exact h

/-- What is made of a lone expression. -/
theorem single_eq_some {α : Type} {lhs : List Expr} {f : Expr → Option α} {a : α}
    (h : (match lhs with
      | [e] => f e
      | _ => none) = some a) : ∃ e, lhs = [e] ∧ f e = some a := by
  split at h
  · exact ⟨_, rfl, h⟩
  · cases h

theorem step_yields (hP : Expr.Follows src P) {kind : ItemKind} {e : Expr} {op : Operator}
    {us : Forest} (vs : Forest) (he : e.MadeOf us) :
    Yields src (Phrase.part src P ⟨kind, .step e op (hull (us ++ vs))⟩) (us ++ vs) :=
  ((he.yields hP).has.more vs).yields (by simp [he.ne_nil]) fun hs hp =>
    .step hs (hp _ List.mem_cons_self)

theorem assign_yields (hP : Expr.Follows src P) {kind : ItemKind} {lhs rhs : List Expr}
    {op : Operator} {us vs : Forest} (t : Tree) (hl : Expr.ListOf lhs us)
    (hr : Expr.ListOf rhs vs) :
    Yields src (Phrase.part src P ⟨kind, .assign lhs op rhs (hull (us ++ t :: vs))⟩)
      (us ++ t :: vs) := by
  have hlhs := hl.along.has fun _ _ he => he.yields hP
  have hrhs := hr.along.has fun _ _ he => he.yields hP
  refine (hlhs.append (hrhs.skip t)).yields (by simp) fun hs hp => ?_
  obtain ⟨hl, hr⟩ := List.forall_mem_append.1 hp
  refine .assign ?_ (Part.forall_mem_of_map hl) (Part.forall_mem_of_map hr)
  rwa [List.map_append, List.map_map, List.map_map] at hs

/-- What stands after the expressions at the head of a simple statement. -/
theorem readAfter_yields (hI : I.MakesExprs) (hP : Expr.Follows src P) {q : Place}
    {lhs : List Expr} {us rest rest' : Forest} {s : Simple} (hl : Expr.ListOf lhs us)
    (h : readAfter I q (us ++ rest) lhs rest = some (s, rest')) :
    ∃ vs, rest = vs ++ rest' ∧ Yields src (s.part src P) (us ++ vs) := by
  have halone : ∀ {e : Expr}, lhs = [e] → (Simple.expr e, rest) = (s, rest') →
      ∃ vs, rest = vs ++ rest' ∧ Yields src (s.part src P) (us ++ vs) := by
    intro e he hs
    cases hs
    rw [he] at hl
    exact ⟨[], rfl, by rw [List.append_nil]; exact (hl.single e rfl).yields hP⟩
  have hstep : ∀ {pair : Operator × Operator} {kind : ItemKind} {op : Operator} {e : Expr},
      rest.pair? = some pair → lhs = [e] →
      (Simple.phrase ⟨kind, .step e op ((us ++ rest).spanOf (rest.drop 2))⟩, rest.drop 2)
        = (s, rest') →
      ∃ vs, rest = vs ++ rest' ∧ Yields src (s.part src P) (us ++ vs) := by
    intro pair kind op e hpair he hs
    cases hs
    rw [he] at hl
    obtain ⟨a, b, rest₁, rfl⟩ := Forest.cons_of_pair? hpair
    have hy : Yields src (Phrase.part src P ⟨kind, .step e op (hull (us ++ [a, b]))⟩) _ :=
      step_yields hP [a, b] (hl.single e rfl)
    rw [← Forest.spanOf_append_append us [a, b] rest₁] at hy
    exact ⟨[a, b], rfl, hy⟩
  unfold readAfter at h
  dsimp only at h
  split at h
  · obtain ⟨e, he, h⟩ := single_eq_some h
    exact halone he (Option.some.inj h)
  · split at h
    · rename_i hpair
      obtain ⟨e, he, h⟩ := single_eq_some h
      exact hstep hpair he (Option.some.inj h)
    · rename_i hpair
      obtain ⟨e, he, h⟩ := single_eq_some h
      exact hstep hpair he (Option.some.inj h)
    · rename_i hpair
      split at h
      · obtain ⟨⟨e, rest₂⟩, he, hs⟩ := Option.map_eq_some_iff.1 h
        cases hs
        obtain ⟨a, b, rest₁, rfl⟩ := Forest.cons_of_pair? hpair
        obtain ⟨vs, hvs, -⟩ := Expr.read_made hI he
        obtain rfl : rest₁ = vs ++ rest₂ := hvs
        have hy : Yields src (Stmt.part src P (.unsupported (hull (us ++ a :: b :: vs)))) _ :=
          Forest.yields_unsupported P (by simp)
        rw [← Forest.spanOf_append_append us (a :: b :: vs) rest₂] at hy
        exact ⟨a :: b :: vs, rfl, hy⟩
      · cases h
    · cases rest with
      | nil =>
        obtain ⟨e, he, h⟩ := single_eq_some h
        exact halone he (Option.some.inj h)
      | cons t rhs =>
        dsimp only at h
        split at h
        · rename_i kind op hop
          obtain ⟨⟨rs, rest₂⟩, hr, hs⟩ := Option.map_eq_some_iff.1 h
          cases hs
          obtain ⟨vs, rfl, hv⟩ := Expr.readList_made hI hr
          have hy : Yields src (Phrase.part src P ⟨kind, .assign lhs op rs (hull _)⟩) _ :=
            assign_yields hP t hl hv
          rw [← Forest.spanOf_append_append us (t :: vs) rest₂] at hy
          exact ⟨t :: vs, rfl, hy⟩
        · obtain ⟨e, he, h⟩ := single_eq_some h
          exact halone he (Option.some.inj h)

theorem read_yields (hI : I.MakesExprs) (hP : Expr.Follows src P) {p q : Place} :
    Reader.Takes (read I p q) fun s us => Yields src (s.part src P) us := by
  intro ts s rest h
  obtain ⟨⟨lhs, rest₁⟩, hl, hr⟩ := Option.bind_eq_some_iff.1 h
  obtain ⟨us, rfl, hus⟩ := Expr.readList_made hI hl
  obtain ⟨vs, rfl, hy⟩ := readAfter_yields hI hP hus hr
  exact ⟨us ++ vs, (List.append_assoc us vs rest).symm, hy⟩

end Simple

/-! ## Blocks and headers -/

theorem readBlock_yields (hI : I.FindsParts src P) :
    Reader.Takes (readBlock I) fun b us => Yields src (b.part src P) us := by
  intro ts b rest h
  obtain ⟨gap, inner, closing, span, stmts, rfl, hs, rfl⟩ := readBlock_eq_some h
  have hg : Has src (stmts.map (Stmt.part src P)) [.group .brace gap inner closing span] :=
    (hI.block hs).group
  refine ⟨[.group .brace gap inner closing span], rfl, hg.yields (by simp) fun hs hp => ?_⟩
  rw [List.map_map] at hs
  exact .mk hs (Part.forall_mem_of_map hp)

/-- A block as a statement. -/
theorem Forest.Yields.stmt {b : Block} {us : Forest} (h : Yields src (b.part src P) us) :
    Yields src (Stmt.part src P (.block b)) us :=
  ⟨h.ne_nil, h.span_eq, fun hp => .block (h.sound hp)⟩

theorem readHeader_has (hI : I.FindsParts src P) (hP : Expr.Follows src P) {init : Option Stmt}
    {test : Expr} {ts rest : Forest} (h : readHeader I ts = some (init, test, rest)) :
    ∃ us, ts = us ++ rest ∧ us ≠ [] ∧
      Has src (init.toList.map (Stmt.part src P) ++ [test.part P]) us := by
  obtain ⟨⟨first, rest₁⟩, hf, hr⟩ := Option.bind_eq_some_iff.1 h
  obtain ⟨us, rfl, hus⟩ := Simple.read_yields hI.exprs hP hf
  dsimp only at hr
  split at hr
  · rename_i t rest₂
    split at hr
    · obtain ⟨⟨e, rest₃⟩, he, hr⟩ := Option.bind_eq_some_iff.1 hr
      cases hr
      obtain ⟨vs, rfl, hvs⟩ := Expr.read_made hI.exprs he
      refine ⟨us ++ t :: vs, by simp, by simp, ?_⟩
      exact (Simple.toPhrase_yields hus).has.append ((hvs.yields hP).has.skip t)
    · split at hr
      · cases hr
        exact ⟨us, rfl, hus.ne_nil, hus.has⟩
      · cases hr
  · cases hr

/-! ## Conditionals -/

theorem cond_yields {init other : Option Stmt} {test : Expr} {body : Block} {t : Tree}
    {us vs ws : Forest} (hh : Has src (init.toList.map (Stmt.part src P) ++ [test.part P]) us)
    (hb : Yields src (body.part src P) vs)
    (ho : Has src (other.toList.map (Stmt.part src P)) ws) :
    Yields src (Stmt.part src P (.cond init test body other (hull (t :: (us ++ (vs ++ ws))))))
      (t :: (us ++ (vs ++ ws))) := by
  refine ((hh.append (hb.has.append ho)).skip t).yields (by simp) fun hs hp => ?_
  obtain ⟨hh, hp⟩ := List.forall_mem_append.1 hp
  obtain ⟨hi, ht⟩ := List.forall_mem_append.1 hh
  obtain ⟨hb, ho⟩ := List.forall_mem_append.1 hp
  refine .cond ?_ (fun s hs => ?_) (ht _ List.mem_cons_self) (hb _ List.mem_cons_self)
    fun s hs => ?_
  · simpa [Function.comp_def, Stmt.part, Expr.part, Block.part] using hs
  · exact hi _ (List.mem_map_of_mem (Option.mem_toList.2 hs))
  · exact ho _ (List.mem_map_of_mem (Option.mem_toList.2 hs))

/-- A conditional whose header and body are read, with what follows them. -/
theorem cond_takes (hI : I.FindsParts src P) (hP : Expr.Follows src P) (ws : Forest) {t : Tree}
    {ts rest₁ rest : Forest} {init other : Option Stmt} {test : Expr} {body : Block}
    (hh : readHeader I ts = some (init, test, rest₁))
    (hb : readBlock I rest₁ = some (body, ws ++ rest))
    (ho : Has src (other.toList.map (Stmt.part src P)) ws) :
    ∃ us, t :: ts = us ++ rest ∧
      Yields src (Stmt.part src P
        (.cond init test body other (Forest.spanOf (t :: ts) rest))) us := by
  obtain ⟨us, rfl, -, hhas⟩ := readHeader_has hI hP hh
  obtain ⟨vs, rfl, hbody⟩ := readBlock_yields hI hb
  have hall : t :: (us ++ (vs ++ (ws ++ rest))) = t :: (us ++ (vs ++ ws)) ++ rest := by simp
  rw [hall, Forest.spanOf_append]
  exact ⟨_, rfl, cond_yields hhas hbody ho⟩

theorem Conditional.takes (hI : I.FindsParts src P) (hP : Expr.Follows src P) {ts rest : Forest}
    {s : Stmt} (h : Conditional I ts s rest) :
    ∃ us, ts = us ++ rest ∧ Yields src (s.part src P) us := by
  induction h with
  | alone hh hb => exact cond_takes hI hP [] hh hb .nil
  | @chained _ word _ _ _ _ _ _ _ _ hh hb _ ih =>
    obtain ⟨ws, rfl, hws⟩ := ih
    exact cond_takes hI hP (word :: ws) hh hb (hws.has.skip word)
  | @closed _ word _ _ _ _ _ _ _ _ hh hb ho =>
    obtain ⟨ws, rfl, hws⟩ := readBlock_yields hI ho
    exact cond_takes hI hP (word :: ws) hh hb (hws.stmt.has.skip word)

theorem readIf_yields (hI : I.FindsParts src P) (hP : Expr.Follows src P) :
    Reader.Takes (readIf I) fun s us => Yields src (s.part src P) us :=
  fun h => (conditional_of_readIf h).takes hI hP

/-! ## Loops -/

namespace LoopHeader

/-- The statements and the test of a header, in the order in which they are written. -/
def parts (src : Source) (P : Expr → Prop) : LoopHeader → List Part
  | .clauses init test post =>
    init.toList.map (Stmt.part src P) ++ test.toList.map (Expr.part P)
      ++ post.toList.map (Stmt.part src P)
  | .range => []

theorem readRange_eq_some (hI : I.MakesExprs) {ts rest : Forest} {header : LoopHeader}
    (h : readRange I ts = some (header, rest)) :
    header = .range ∧ ∃ us, ts = us ++ rest := by
  unfold readRange at h
  split at h
  · rename_i t ts
    split at h
    · obtain ⟨⟨e, rest₁⟩, he, hs⟩ := Option.map_eq_some_iff.1 h
      cases hs
      obtain ⟨us, rfl, -⟩ := Expr.read_made hI he
      exact ⟨rfl, t :: us, rfl⟩
    · cases h
  · cases h

/-- What follows the test of a header: a semicolon, and the post statement if there is one. -/
theorem readPost_has (hI : I.FindsParts src P) (hP : Expr.Follows src P) {init : Option Stmt}
    {test : Option Expr} {us ts rest : Forest} {header : LoopHeader}
    (ht : Has src (init.toList.map (Stmt.part src P) ++ test.toList.map (Expr.part P)) us)
    (h : (do
      guard (ts.head?.any (Tree.isMark .semicolon))
      match ts.tail with
      | .group .brace gap inner closing span :: rest =>
        return (.clauses init test none, .group .brace gap inner closing span :: rest)
      | rest =>
        let (post, rest) ← Simple.read I .header .header rest
        return (.clauses init test (some post.stmt), rest)) = some (header, rest)) :
    ∃ vs, ts = vs ++ rest ∧ Has src (header.parts src P) (us ++ vs) := by
  obtain ⟨u, hg, hr⟩ := Option.bind_eq_some_iff.1 h
  cases ts with
  | nil => cases hg
  | cons semicolon ts =>
    dsimp only [List.tail_cons] at hr
    split at hr
    · cases hr
      refine ⟨[semicolon], rfl, ?_⟩
      exact ht.append .nil
    · obtain ⟨⟨post, rest₂⟩, hp, hr⟩ := Option.bind_eq_some_iff.1 hr
      cases hr
      obtain ⟨ws, rfl, hws⟩ := Simple.read_yields hI.exprs hP hp
      exact ⟨semicolon :: ws, rfl, ht.append ((Simple.toPhrase_yields hws).has.skip semicolon)⟩

theorem readClauses_has (hI : I.FindsParts src P) (hP : Expr.Follows src P) {init : Option Stmt}
    {us ts rest : Forest} {header : LoopHeader}
    (hi : Has src (init.toList.map (Stmt.part src P)) us)
    (h : readClauses I init ts = some (header, rest)) :
    ∃ vs, ts = vs ++ rest ∧ Has src (header.parts src P) (us ++ vs) := by
  unfold readClauses at h
  split at h
  · have hn : Has src (init.toList.map (Stmt.part src P)
        ++ (none : Option Expr).toList.map (Expr.part P)) us := by
      rwa [Option.toList_none, List.map_nil, List.append_nil]
    exact readPost_has hI hP hn h
  · obtain ⟨⟨test, rest₁⟩, ht, hr⟩ := Option.bind_eq_some_iff.1 h
    obtain ⟨⟨e, rest₂⟩, he, hs⟩ := Option.map_eq_some_iff.1 ht
    cases hs
    obtain ⟨vs, rfl, hvs⟩ := Expr.read_made hI.exprs he
    have he : Has src (init.toList.map (Stmt.part src P)
        ++ (some e).toList.map (Expr.part P)) (us ++ vs) := hi.append (hvs.yields hP).has
    obtain ⟨ws, rfl, hws⟩ := readPost_has hI hP he hr
    exact ⟨vs ++ ws, (List.append_assoc vs ws rest).symm, by rwa [← List.append_assoc]⟩

theorem read_has (hI : I.FindsParts src P) (hP : Expr.Follows src P) {ts rest : Forest}
    {header : LoopHeader} (h : read I ts = some (header, rest)) :
    ∃ us, ts = us ++ rest ∧ Has src (header.parts src P) us := by
  have hrange : ∀ {ts' : Forest}, readRange I ts' = some (header, rest) →
      ∃ us, ts' = us ++ rest ∧ Has src (header.parts src P) us := by
    intro ts' hr
    obtain ⟨rfl, us, rfl⟩ := readRange_eq_some hI.exprs hr
    exact ⟨us, rfl, .nil⟩
  unfold read at h
  split at h
  · cases h
  · cases h
    exact ⟨[], rfl, .nil⟩
  · rename_i t ts _
    split at h
    · exact hrange h
    · split at h
      · have hnone : Has src ((none : Option Stmt).toList.map (Stmt.part src P)) [t] := .nil
        obtain ⟨vs, rfl, hv⟩ := readClauses_has hI hP hnone h
        exact ⟨t :: vs, rfl, hv⟩
      · obtain ⟨⟨lhs, rest₁⟩, hl, hr⟩ := Option.bind_eq_some_iff.1 h
        obtain ⟨us, hus, hlist⟩ := Expr.readList_made hI.exprs hl
        rw [hus] at hr ⊢
        dsimp only at hr
        split at hr
        · cases rest₁ with
          | nil =>
            cases hr
          | cons op rest₁ =>
            obtain ⟨rfl, vs, hvs⟩ := readRange_eq_some hI.exprs hr
            obtain rfl : rest₁ = vs ++ rest := hvs
            exact ⟨us ++ op :: vs, by simp, .nil⟩
        · obtain ⟨⟨first, rest₂⟩, hf, hg⟩ := Option.bind_eq_some_iff.1 hr
          obtain ⟨vs, rfl, hy⟩ := Simple.readAfter_yields hI.exprs hP hlist hf
          dsimp only at hg
          split at hg
          · rename_i hsemicolon
            cases rest₂ with
            | nil => cases hsemicolon
            | cons semicolon rest₂ =>
              have hinit : Has src ((some first.stmt).toList.map (Stmt.part src P))
                  (us ++ vs ++ [semicolon]) := (Simple.toPhrase_yields hy).has.more [semicolon]
              obtain ⟨ws, hws, hall⟩ := readClauses_has hI hP hinit hg
              obtain rfl : rest₂ = ws ++ rest := hws
              exact ⟨us ++ vs ++ [semicolon] ++ ws, by simp, hall⟩
          · split at hg
            · cases hg
              exact ⟨us ++ vs, (List.append_assoc us vs _).symm, hy.has⟩
            · cases hg

end LoopHeader

theorem loop_yields {init post : Option Stmt} {test : Option Expr} {body : Block} {t : Tree}
    {us vs : Forest} (hh : Has src ((LoopHeader.clauses init test post).parts src P) us)
    (hb : Yields src (body.part src P) vs) :
    Yields src (Stmt.part src P (.loop init test post body (hull (t :: (us ++ vs)))))
      (t :: (us ++ vs)) := by
  refine ((hh.append hb.has).skip t).yields (by simp) fun hs hp => ?_
  obtain ⟨hh, hb⟩ := List.forall_mem_append.1 hp
  obtain ⟨hh, ho⟩ := List.forall_mem_append.1 hh
  obtain ⟨hi, ht⟩ := List.forall_mem_append.1 hh
  refine .loop ?_ (fun s hs => ?_) (fun e he => ?_) (fun s hs => ?_) (hb _ List.mem_cons_self)
  · simpa [Function.comp_def, LoopHeader.parts, Stmt.part, Expr.part, Block.part] using hs
  · exact hi _ (List.mem_map_of_mem (Option.mem_toList.2 hs))
  · exact ht _ (List.mem_map_of_mem (Option.mem_toList.2 he))
  · exact ho _ (List.mem_map_of_mem (Option.mem_toList.2 hs))

theorem readFor_yields (hI : I.FindsParts src P) (hP : Expr.Follows src P) :
    Reader.Takes (readFor I) fun s us => Yields src (s.part src P) us := by
  intro ts s rest h
  obtain ⟨t, us, header, rest₁, body, rfl, hh, hb, rfl⟩ := readFor_eq_some h
  obtain ⟨us, rfl, hhas⟩ := LoopHeader.read_has hI hP hh
  obtain ⟨vs, rfl, hbody⟩ := readBlock_yields hI hb
  have hall : t :: (us ++ (vs ++ rest)) = t :: (us ++ vs) ++ rest := by simp
  rw [hall, Forest.spanOf_append]
  refine ⟨_, rfl, ?_⟩
  cases header with
  | clauses init test post => exact loop_yields hhas hbody
  | range => exact Forest.yields_unsupported P (by simp)

/-! ## Switches -/

theorem readSwitchValue_takes (hI : I.MakesExprs) (hP : Expr.Follows src P) :
    Reader.Takes (readSwitchValue I) fun _ _ => True := by
  intro ts a rest h
  unfold readSwitchValue at h
  split at h
  · cases h
    exact ⟨[], rfl, trivial⟩
  · obtain ⟨⟨value, rest₁⟩, hv, hr⟩ := Option.bind_eq_some_iff.1 h
    obtain ⟨b, -, he⟩ := Option.map_eq_some_iff.1 hr
    cases he
    obtain ⟨us, rfl, -⟩ := Simple.read_yields hI hP hv
    exact ⟨us, rfl, trivial⟩

theorem readSwitchHeader_takes (hI : I.MakesExprs) (hP : Expr.Follows src P) :
    Reader.Takes (readSwitchHeader I) fun _ _ => True := by
  intro ts a rest h
  unfold readSwitchHeader at h
  split at h
  · cases h
    exact ⟨[], rfl, trivial⟩
  · obtain ⟨⟨first, rest₁⟩, hf, hr⟩ := Option.bind_eq_some_iff.1 h
    obtain ⟨us, rfl, -⟩ := Simple.read_yields hI hP hf
    dsimp only at hr
    split at hr
    · rename_i hsemicolon
      cases rest₁ with
      | nil => cases hsemicolon
      | cons semicolon rest₁ =>
        obtain ⟨vs, hvs, -⟩ := readSwitchValue_takes hI hP hr
        obtain rfl : rest₁ = vs ++ rest := hvs
        exact ⟨us ++ semicolon :: vs, by simp, trivial⟩
    · obtain ⟨b, -, he⟩ := Option.map_eq_some_iff.1 hr
      cases he
      exact ⟨us, rfl, trivial⟩

theorem readSwitch_yields (hI : I.MakesExprs) (hP : Expr.Follows src P) :
    Reader.Takes (readSwitch I) fun p us => Yields src (p.part src P) us := by
  intro ts p rest h
  unfold readSwitch at h
  obtain ⟨⟨overTypes, rest₁⟩, hh, hr⟩ := Option.bind_eq_some_iff.1 h
  cases ts with
  | nil => cases hh
  | cons t ts =>
    obtain ⟨us, hus, -⟩ := readSwitchHeader_takes hI hP hh
    obtain rfl : ts = us ++ rest₁ := hus
    dsimp only at hr
    split at hr
    · rename_i gap inner closing span rest₂
      have hall : t :: (us ++ .group .brace gap inner closing span :: rest₂)
          = t :: (us ++ [.group .brace gap inner closing span]) ++ rest₂ := by simp
      rw [hall] at hr ⊢
      split at hr
      · obtain ⟨u, -, hr⟩ := Option.bind_eq_some_iff.1 hr
        cases hr
        exact ⟨_, rfl, Phrase.opaquely_yields .typeSwitch (by simp)⟩
      · obtain ⟨u, -, hr⟩ := Option.bind_eq_some_iff.1 hr
        cases hr
        exact ⟨_, rfl, Phrase.opaquely_yields .exprSwitch (by simp)⟩
    · cases hr

theorem readSelect_yields (I : Interior) :
    Reader.Takes (readSelect I) fun p us => Yields src (p.part src P) us := by
  intro ts p rest h
  cases ts with
  | nil => cases h
  | cons t ts =>
    unfold readSelect at h
    dsimp only [List.tail_cons] at h
    split at h
    · split at h
      · cases h
        exact Phrase.opaquely_takes .select t [_]
      · cases h
    · cases h

/-! ## Statements -/

theorem readReturn_yields (hI : I.MakesExprs) (hP : Expr.Follows src P) {t : Tree}
    {ts rest : Forest} {p : Phrase} (h : readReturn I (t :: ts) = some (p, rest)) :
    ∃ us, t :: ts = us ++ rest ∧ Yields src (p.part src P) us := by
  have hret : ∀ (results : List Expr) {us : Forest}, Has src (results.map (Expr.part P)) us →
      us ≠ [] → Yields src (Phrase.part src P ⟨.return, .ret results (hull us)⟩) us := by
    intro results us hr hu
    refine hr.yields hu fun hs hp => .ret ?_ (Part.forall_mem_of_map hp)
    rwa [List.map_map] at hs
  unfold readReturn at h
  split at h
  · obtain ⟨⟨results, rest₁⟩, hr, he⟩ := Option.map_eq_some_iff.1 h
    cases he
    obtain ⟨us, rfl, hus⟩ := Expr.readList_made hI hr
    refine ⟨t :: us, rfl, ?_⟩
    rw [← List.cons_append, Forest.spanOf_append]
    exact hret results ((hus.along.has fun _ _ he => he.yields hP).skip t) (by simp)
  · cases h
    have hy := hret [] .nil (List.cons_ne_nil t [])
    rw [← Forest.spanOf_append [t] ts] at hy
    exact ⟨[t], rfl, hy⟩

theorem readJump_yields (kind : ItemKind) {t : Tree} {ts rest : Forest} {p : Phrase}
    (h : readJump kind (t :: ts) = some (p, rest)) :
    ∃ us, t :: ts = us ++ rest ∧ Yields src (p.part src P) us := by
  unfold readJump at h
  split at h
  · rename_i label rest₁ hts
    obtain rfl : ts = label :: rest₁ := hts
    split at h
    · cases h
      exact Phrase.opaquely_takes kind t [_]
    · cases h
      exact Phrase.opaquely_takes kind t []
  · rename_i hts
    obtain rfl : ts = [] := hts
    cases h
    exact Phrase.opaquely_takes kind t []

theorem readWorded?_yields (hI : I.FindsParts src P) (hP : Expr.Follows src P) {w : String}
    {t : Tree} {ts rest : Forest} {p : Phrase}
    (h : readWorded? I w (t :: ts) = some (some (p, rest))) :
    ∃ us, t :: ts = us ++ rest ∧ Yields src (p.part src P) us := by
  have hexpr : ∀ {kind : ItemKind} {ts : Forest}, (Expr.read I .listed ts).map
      (fun q => (Phrase.opaquely kind (t :: ts) q.2, q.2)) = some (p, rest) →
      ∃ us, t :: ts = us ++ rest ∧ Yields src (p.part src P) us := by
    intro kind ts h
    obtain ⟨⟨e, rest₁⟩, hr, he⟩ := Option.map_eq_some_iff.1 h
    cases he
    obtain ⟨us, rfl, -⟩ := Expr.read_made hI.exprs hr
    exact Phrase.opaquely_takes kind t us
  have hstmt : ∀ {kind : ItemKind} {r : Reader Stmt},
      r.Takes (fun s us => Yields src (s.part src P) us) →
      (r (t :: ts)).map (fun q => (Phrase.mk kind q.1, q.2)) = some (p, rest) →
      ∃ us, t :: ts = us ++ rest ∧ Yields src (p.part src P) us := by
    intro kind r ht h
    obtain ⟨⟨s, rest₁⟩, hr, he⟩ := Option.map_eq_some_iff.1 h
    cases he
    exact ht hr
  unfold readWorded? at h
  split at h
  · exact readValueDecl_yields hI hP .var (Option.some.inj h)
  · exact readValueDecl_yields hI hP .const (Option.some.inj h)
  · exact readTypeDecl_yields I (Option.some.inj h)
  · exact readReturn_yields hI.exprs hP (Option.some.inj h)
  · exact hexpr (Option.some.inj h)
  · exact hexpr (Option.some.inj h)
  · exact hstmt (readIf_yields hI hP) (Option.some.inj h)
  · exact hstmt (readFor_yields hI hP) (Option.some.inj h)
  · exact readSwitch_yields hI.exprs hP (Option.some.inj h)
  · exact readSelect_yields I (Option.some.inj h)
  · cases h
    exact Phrase.opaquely_takes .fallthrough t []
  · exact readJump_yields .break (Option.some.inj h)
  · exact readJump_yields .continue (Option.some.inj h)
  · dsimp only [List.tail_cons] at h
    split at h
    · split at h
      · cases h
        exact Phrase.opaquely_takes .goto t [_]
      · cases h
    · cases h
  · cases h

theorem readStmt_yields (hI : I.FindsParts src P) (hP : Expr.Follows src P) :
    Reader.Takes (readStmt I) fun p us => Yields src (p.part src P) us := by
  intro ts p rest h
  induction hn : ts.length using Nat.strongRecOn generalizing ts p with
  | _ n ih =>
    cases ts with
    | nil => cases h
    | cons t ts =>
      unfold readStmt at h
      split at h
      · cases h
        exact Phrase.opaquely_takes .empty t []
      · split at h
        · split at h
          · rename_i colon rest₁ _
            obtain ⟨⟨q, rest₂⟩, hq, he⟩ := Option.map_eq_some_iff.1 h
            cases he
            have hlt : rest₁.length < n := by
              rw [← hn, List.length_cons, List.length_cons]
              omega
            obtain ⟨us, rfl, hus⟩ := ih _ hlt hq rfl
            have hs : t.span.through q.stmt.span = hull (t :: colon :: us) := by
              rw [Forest.hull_cons (by simp), Forest.hull_cons hus.ne_nil, ← hus.span_eq]
              rfl
            rw [hs]
            exact ⟨t :: colon :: us, rfl, Forest.yields_unsupported P (by simp)⟩
          · cases h
        · split at h
          · rename_i r hr
            subst h
            obtain ⟨w, -, hw⟩ := Option.bind_eq_some_iff.1 hr
            exact readWorded?_yields hI hP hw
          · split at h
            · obtain ⟨⟨b, rest₁⟩, hb, he⟩ := Option.map_eq_some_iff.1 h
              cases he
              obtain ⟨us, hus, hy⟩ := readBlock_yields hI hb
              exact ⟨us, hus, hy.stmt⟩
            · obtain ⟨⟨s, rest₁⟩, hs, he⟩ := Option.map_eq_some_iff.1 h
              cases he
              obtain ⟨us, hus, hy⟩ := Simple.read_yields hI.exprs hP hs
              exact ⟨us, hus, Simple.toPhrase_yields hy⟩

/-! ## Lists of statements -/

theorem readListed_yields (hI : I.FindsParts src P) (hP : Expr.Follows src P)
    {stop : Tree → Bool} :
    Reader.Takes (readListed I stop) fun p us => Yields src (p.part src P) us := by
  intro ts p rest h
  rcases readListed_cases h with h | ⟨a, b, rfl, rfl⟩
  · exact readStmt_yields hI hP h
  · exact Phrase.opaquely_takes .labeled a [b]

/-- The statements of a block, the empty ones left out. -/
theorem readStmts_has (hI : I.FindsParts src P) (hP : Expr.Follows src P) {ts : Forest}
    {ss : List Stmt} (h : readStmts I ts = some ss) : Has src (ss.map (Stmt.part src P)) ts := by
  obtain ⟨ps, hl, rfl⟩ := readStmts_eq_some h
  obtain ⟨us, rfl, ha⟩ := Reader.Takes.listed (readListed_yields hI hP) (readList_listed hl)
  rw [List.append_nil, List.map_map]
  exact ha.filter.has fun _ _ hp => hp

end Recast
