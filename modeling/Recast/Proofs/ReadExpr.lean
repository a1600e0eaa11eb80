import Recast.Grammar.File
import Recast.Proofs.Readers

/-!
# Reading types and expressions

The readers of types and expressions find what is made of the trees that they take
(`TypeExpr.read_made`, `Expr.read_made`), if the readers for the contents of brackets do
(`Interior.MakesExprs`).
-/

namespace Recast

open Forest (hull Along)

/-- The readers for the contents of brackets find expressions that are made of these contents. -/
structure Interior.MakesExprs (I : Interior) : Prop where
  expr : ∀ {ts : Forest} {e : Expr}, I.expr ts = some e → e.MadeOf ts
  args : ∀ {ts : Forest} {es : List Expr}, I.args ts = some es → Along Expr.MadeOf es ts
  typedArgs : ∀ {ts : Forest} {es : List Expr}, I.typedArgs ts = some es → Along Expr.MadeOf es ts

/-! ## Types -/

namespace TypeExpr

variable {I : Interior} {line : Bool}

/-- More trees after a type or before it, taken with it as a whole. -/
theorem MadeOf.unsupportedAfter {type : TypeExpr} {us : Forest} (h : type.MadeOf us) (t : Tree)
    (skipped : Forest) :
    (TypeExpr.unsupported (t.span.through type.span)).MadeOf (t :: (skipped ++ us)) := by
  have hn : skipped ++ us ≠ [] := by simp [h.ne_nil]
  have hs : t.span.through type.span = hull (t :: (skipped ++ us)) := by
    rw [Forest.hull_cons hn, h.span_eq]
    by_cases hk : skipped = []
    · rw [hk, List.nil_append]
    · rw [Forest.hull_append hk h.ne_nil]
      rfl
  rw [hs]
  exact .unsupported (by simp)

theorem tree_madeOf (t : Tree) : (TypeExpr.unsupported t.span).MadeOf [t] :=
  .unsupported (List.cons_ne_nil t [])

theorem unsupported_madeOf (t u : Tree) (us : Forest) :
    (TypeExpr.unsupported (t.span.through u.span)).MadeOf (t :: (us ++ [u])) := by
  have hs : t.span.through u.span = hull (t :: (us ++ [u])) := by
    rw [Forest.hull_cons (by simp)]
    by_cases hk : us = []
    · rw [hk]
      rfl
    · rw [Forest.hull_append hk (by simp)]
      rfl
  rw [hs]
  exact .unsupported (by simp)

/-- The head of a type name: a name, or a name in a package. -/
def readQualified (line : Bool) (x : Ident) (ts : Forest) : TypeExpr × Forest :=
  match ts with
  | dot :: t :: rest =>
    match t.ident? with
    | some member =>
      if dot.isMark .dot && !(line && dot.onNewLine) then
        (.unsupported (x.span.through member.span), rest)
      else (.named x, ts)
    | none => (.named x, ts)
  | _ => (.named x, ts)

theorem readName_eq (x : Ident) (ts : Forest) :
    readName I line x ts =
      match readQualified line x ts with
      | (name, rest) =>
        match rest with
        | .group .square gap inner _ span :: after =>
          if !(line && gap == .line) && I.typeArgs inner then
            (.unsupported (x.span.through span), after)
          else (name, rest)
        | _ => (name, rest) :=
  rfl

theorem readQualified_made (line : Bool) (w : String) (gap : Gap) (span : Span) (ts : Forest) :
    ∃ us, ts = us ++ (readQualified line ⟨w, span⟩ ts).2 ∧
      (readQualified line ⟨w, span⟩ ts).1.MadeOf (.leaf ⟨.word w, gap, span⟩ :: us) := by
  unfold readQualified
  split
  · rename_i dot t rest'
    split
    · rename_i member hm
      obtain ⟨gap', rfl⟩ := Tree.ident?_eq_some hm
      split
      · exact ⟨[dot, _], rfl, unsupported_madeOf (.leaf ⟨.word w, gap, span⟩)
          (.leaf ⟨.word member.name, gap', member.span⟩) [dot]⟩
      · exact ⟨[], rfl, .named⟩
    · exact ⟨[], rfl, .named⟩
  · exact ⟨[], rfl, .named⟩

theorem readName_made {w : String} {gap : Gap} {span : Span} {ts rest : Forest} {type : TypeExpr}
    (h : readName I line ⟨w, span⟩ ts = (type, rest)) :
    ∃ us, .leaf ⟨.word w, gap, span⟩ :: ts = us ++ rest ∧ type.MadeOf us := by
  rw [readName_eq] at h
  obtain ⟨us, hts, hm⟩ := readQualified_made line w gap span ts
  generalize readQualified line ⟨w, span⟩ ts = q at h hts hm
  obtain ⟨name, rest'⟩ := q
  dsimp only at h hts hm
  have hplain : ∃ us, .leaf ⟨.word w, gap, span⟩ :: ts = us ++ rest' ∧ name.MadeOf us :=
    ⟨_, by rw [hts, List.cons_append], hm⟩
  split at h
  · rename_i gap' inner closing span' after
    split at h
    · cases h
      have hall := unsupported_madeOf (.leaf ⟨.word w, gap, span⟩)
        (.group .square gap' inner closing span') us
      exact ⟨_, by rw [hts]; simp, hall⟩
    · cases h
      exact hplain
  · cases h
    exact hplain

/-- A type that goes on with the type at the head of what follows. -/
theorem prefixed_made {t : Tree} {skipped ts rest : Forest} {type : TypeExpr}
    {r : Option (TypeExpr × Forest)}
    (hr : ∀ {type' rest'}, r = some (type', rest') → ∃ us, ts = us ++ rest' ∧ type'.MadeOf us)
    (h : r.map (fun p => (.unsupported (t.span.through p.1.span), p.2)) = some (type, rest)) :
    ∃ us, t :: (skipped ++ ts) = us ++ rest ∧ type.MadeOf us := by
  obtain ⟨⟨type', rest'⟩, hr', he⟩ := Option.map_eq_some_iff.1 h
  cases he
  obtain ⟨us, rfl, hm⟩ := hr hr'
  exact ⟨t :: (skipped ++ us), by simp, hm.unsupportedAfter t skipped⟩

theorem read_made (I : Interior) (line : Bool) : (read I line).Takes MadeOf := by
  intro ts type rest h
  induction hn : ts.length using Nat.strongRecOn generalizing ts type rest with
  | _ n ih =>
    cases ts with
    | nil => cases h
    | cons t ts =>
      have hprefixed : ∀ (skipped : Forest) {ts' : Forest}, skipped ++ ts' = ts →
          (read I line ts').map (fun p => (.unsupported (t.span.through p.1.span), p.2))
            = some (type, rest) →
          ∃ us, t :: ts = us ++ rest ∧ type.MadeOf us := by
        intro skipped ts' hts hr
        subst hts
        refine prefixed_made (fun hr' => ih ts'.length ?_ hr' rfl) hr
        rw [← hn, List.length_cons, List.length_append]
        omega
      have hclosed : ∀ (us : Forest) {u : Tree}, us ++ u :: rest = ts →
          type = .unsupported (t.span.through u.span) →
          ∃ us, t :: ts = us ++ rest ∧ type.MadeOf us := by
        intro us u hts hty
        subst hts hty
        exact ⟨t :: (us ++ [u]), by simp, unsupported_madeOf t u us⟩
      unfold read at h
      dsimp only at h
      split at h
      · split at h
        · rename_i gap inner closing span hi
          cases h
          exact ⟨_, rfl, tree_madeOf (.group .paren gap inner closing span)⟩
        · cases h
      · split at h
        · exact hprefixed [] rfl h
        · cases h
      · cases h
      · exact hprefixed [] rfl h
      · exact hprefixed [] rfl h
      · split at h
        · rename_i dash chan ts'
          split at h
          · exact hprefixed [dash, chan] rfl h
          · cases h
        · cases h
      · -- A word of a type, or a name.
        rename_i w gap span
        split at h
        · split at h
          · rename_i less dash ts'
            split at h
            · exact hprefixed [less, dash] rfl h
            · exact hprefixed [] rfl h
          · exact hprefixed [] rfl h
        · split at h
          · split at h
            · split at h
              · exact hprefixed [_] rfl h
              · cases h
            · cases h
          · split at h
            · split at h
              · split at h
                · cases h
                  exact hclosed [] rfl rfl
                · cases h
              · cases h
            · split at h
              · split at h
                · split at h
                  · cases h
                    exact hclosed [] rfl rfl
                  · cases h
                · cases h
              · split at h
                · split at h
                  · rename_i params closing s ts'
                    split at h
                    · cases h
                    · split at h
                      · cases h
                        exact hclosed [] rfl rfl
                      · rename_i results close s' rest'
                        split at h
                        · cases h
                          exact hclosed [] rfl rfl
                        · split at h
                          · cases h
                            exact hclosed [_] rfl rfl
                          · cases h
                      · split at h
                        · exact hprefixed [_] rfl h
                        · cases h
                          exact hclosed [] rfl rfl
                  · cases h
                · exact readName_made (Option.some.inj h)
      · cases h

end TypeExpr

/-! ## Operands -/

namespace Expr

variable {I : Interior} {p : Place}

/-- An operand of a chain: an expression that is not binary itself. -/
structure OperandOf (e : Expr) (us : Forest) : Prop where
  made : e.MadeOf us
  top : e.top? = none

theorem OperandOf.unsupported {us : Forest} (hu : us ≠ []) :
    (Expr.unsupported (hull us)).OperandOf us :=
  ⟨.unsupported hu, rfl⟩

theorem OperandOf.unsupportedThrough {e : Expr} {us : Forest} (h : e.OperandOf us)
    (vs : Forest) (hv : vs ≠ []) :
    (Expr.unsupported (e.span.through (hull vs))).OperandOf (us ++ vs) :=
  ⟨h.made.unsupportedThrough vs hv, rfl⟩

/-- What follows a type is one group. -/
theorem afterType_eq_some {isFunc hasElements : Bool} {start : Span} {ts rest : Forest} {e : Expr}
    (h : afterType I isFunc hasElements start ts = some (e, rest)) :
    ∃ u, ts = u :: rest ∧ e = .unsupported (start.through u.span) := by
  unfold afterType at h
  split at h
  · split at h
    · cases h
      exact ⟨_, rfl, rfl⟩
    · cases h
  · split at h
    · cases h
      exact ⟨_, rfl, rfl⟩
    · cases h
  · split at h
    · cases h
      exact ⟨_, rfl, rfl⟩
    · cases h
  · cases h

theorem afterType_operand {isFunc hasElements : Bool} {us ts rest : Forest} {e : Expr}
    (hu : us ≠ []) (h : afterType I isFunc hasElements (hull us) ts = some (e, rest)) :
    ∃ vs, ts = vs ++ rest ∧ e.OperandOf (us ++ vs) := by
  obtain ⟨u, rfl, rfl⟩ := afterType_eq_some h
  refine ⟨[u], rfl, ?_⟩
  have hs : (hull us).through u.span = hull (us ++ [u]) := by
    rw [Forest.hull_append hu (by simp), Forest.hull_singleton]
  rw [hs]
  exact .unsupported (by simp)

theorem readTyped_operand (I : Interior) : Reader.Takes (readTyped I) OperandOf := by
  intro ts e rest h
  unfold readTyped at h
  obtain ⟨first, -, hr⟩ := Option.bind_eq_some_iff.1 h
  obtain ⟨⟨type, rest'⟩, ht, ha⟩ := Option.bind_eq_some_iff.1 hr
  obtain ⟨us, rfl, hm⟩ := TypeExpr.read_made I false ht
  dsimp only at ha
  rw [hm.span_eq] at ha
  obtain ⟨vs, rfl, he⟩ := afterType_operand hm.ne_nil ha
  exact ⟨us ++ vs, (List.append_assoc us vs rest).symm, he⟩

theorem readCounted_operand {b : Bracket} {gap closing : Gap} {inner ts rest : Forest}
    {span : Span} {e : Expr} (h : readCounted I span ts = some (e, rest)) :
    ∃ us, .group b gap inner closing span :: ts = us ++ rest ∧ e.OperandOf us := by
  unfold readCounted at h
  obtain ⟨⟨type, rest'⟩, ht, hr⟩ := Option.bind_eq_some_iff.1 h
  obtain ⟨us, rfl, -⟩ := TypeExpr.read_made I false ht
  dsimp only at hr
  split at hr
  · rename_i gap' inner' closing' span' rest''
    split at hr
    · cases hr
      have hs : span.through span' = hull (.group b gap inner closing span ::
          (us ++ [.group .brace gap' inner' closing' span'])) := by
        rw [Forest.hull_cons (by simp)]
        by_cases hk : us = []
        · rw [hk]
          rfl
        · rw [Forest.hull_append hk (by simp)]
          rfl
      rw [hs]
      exact ⟨_, by simp, .unsupported (by simp)⟩
    · cases hr
  · cases hr

theorem readPrimary_operand (hI : I.MakesExprs) : Reader.Takes (readPrimary I p) OperandOf := by
  intro ts e rest h
  unfold readPrimary at h
  split at h
  · cases h
  · rename_i t ts
    split at h
    · cases h
      exact ⟨[_], rfl, .literal, rfl⟩
    · exact readTyped_operand I h
    · cases h
    · -- A word: a type, `new` or `make` with its arguments, or a name.
      rename_i w gap span
      split at h
      · exact readTyped_operand I h
      · rename_i hw
        have hname : (Expr.name ⟨w, span⟩).OperandOf [.leaf ⟨.word w, gap, span⟩] :=
          ⟨.name (by simpa using hw), rfl⟩
        split at h
        · rename_i gap' inner closing s rest'
          split at h
          · obtain ⟨args, ha, he⟩ := Option.map_eq_some_iff.1 h
            cases he
            have hc : (Expr.call (.name ⟨w, span⟩) args (span.through s)).MadeOf
                ([.leaf ⟨.word w, gap, span⟩] ++ [] ++ [.group .paren gap' inner closing s]) :=
              hname.made.callThrough (hI.typedArgs ha)
            exact ⟨[_, _], rfl, hc, rfl⟩
          · cases h
            exact ⟨[_], rfl, hname⟩
        · cases h
          exact ⟨[_], rfl, hname⟩
    · rename_i gap inner closing span
      have hparen : ∀ {e}, I.expr inner = some e →
          (Expr.paren e span).OperandOf [.group .paren gap inner closing span] :=
        fun he => ⟨.paren (hI.expr he), rfl⟩
      have hafter : ∀ {e rest}, afterType I false false span ts = some (e, rest) →
          ∃ us, .group .paren gap inner closing span :: ts = us ++ rest ∧ e.OperandOf us := by
        intro e rest h
        obtain ⟨vs, rfl, he⟩ :=
          afterType_operand (List.cons_ne_nil (.group .paren gap inner closing span) []) h
        exact ⟨_, rfl, he⟩
      split at h
      · rename_i e' he
        split at h
        · split at h
          · exact hafter h
          · cases h
            exact ⟨[_], rfl, hparen he⟩
        · cases h
          exact ⟨[_], rfl, hparen he⟩
      · split at h
        · exact hafter h
        · cases h
    · split at h
      · split at h
        · exact readCounted_operand h
        · exact readTyped_operand I h
      · exact readTyped_operand I h
    · cases h

/-- Type arguments and the group after them. -/
theorem withTypeArgs_operand (hI : I.MakesExprs) {e e' : Expr} {us typeArgs : Forest}
    {group next : Tree} (he : e.OperandOf us)
    (h : withTypeArgs I p e typeArgs next = some (some e')) :
    e'.OperandOf (us ++ [group, next]) := by
  unfold withTypeArgs at h
  split at h
  · cases h
  · split at h
    · rename_i gap args closing span _
      split at h
      · obtain ⟨es, ha, h⟩ := Option.map_eq_some_iff.1 (Option.some.inj h)
        split at h
        · cases h
          exact he.unsupportedThrough [group, .group .paren gap args closing span] (by simp)
        · cases h
          have hc : (Expr.call e es (e.span.through span)).MadeOf
              (us ++ [group] ++ [.group .paren gap args closing span]) :=
            he.made.callThrough (hI.args ha)
          rw [List.append_assoc] at hc
          exact ⟨hc, rfl⟩
      · cases h
    · rename_i gap inner closing span _
      split at h
      · split at h
        · cases h
          exact he.unsupportedThrough [group, .group .brace gap inner closing span] (by simp)
        · cases h
      · cases h
    · cases h

theorem readPostfix_operand (hI : I.MakesExprs) {e e' : Expr} {us ts rest : Forest}
    (he : e.OperandOf us) (h : readPostfix I p e ts = some (e', rest)) :
    ∃ vs, ts = vs ++ rest ∧ e'.OperandOf (us ++ vs) := by
  induction hn : ts.length using Nat.strongRecOn generalizing ts e us with
  | _ n ih =>
    -- A phrase that has grown by some trees goes on with those after them.
    have hgo : ∀ {e₁ : Expr} (ws : Forest) {ts' : Forest}, ts = ws ++ ts' → ws ≠ [] →
        e₁.OperandOf (us ++ ws) → readPostfix I p e₁ ts' = some (e', rest) →
        ∃ vs, ts = vs ++ rest ∧ e'.OperandOf (us ++ vs) := by
      intro e₁ ws ts' hts hws he₁ h₁
      subst hts
      have hl : ts'.length < n := by
        have hp := List.length_pos_of_ne_nil hws
        rw [← hn, List.length_append]
        omega
      obtain ⟨vs, rfl, hv⟩ := ih ts'.length hl he₁ h₁ rfl
      rw [List.append_assoc] at hv
      exact ⟨ws ++ vs, (List.append_assoc ws vs rest).symm, hv⟩
    have hstop : e' = e → rest = ts → ∃ vs, ts = vs ++ rest ∧ e'.OperandOf (us ++ vs) := by
      rintro rfl rfl
      exact ⟨[], rfl, by rwa [List.append_nil]⟩
    unfold readPostfix at h
    split at h
    · cases h
      exact hstop rfl rfl
    · rename_i t ts
      split at h
      · cases h
        exact hstop rfl rfl
      · split at h
        · split at h
          · exact hgo [_, _] rfl (by simp) ⟨he.made.selectorThrough, rfl⟩ h
          · rename_i inner closing span rest'
            split at h
            · exact hgo [_, .group .paren _ inner closing span] rfl (by simp)
                (he.unsupportedThrough _ (by simp)) h
            · cases h
          · cases h
        · cases h
          exact hstop rfl rfl
        · rename_i gap inner closing span _
          split at h
          · rename_i args ha
            have hc : (Expr.call e args (e.span.through span)).MadeOf
                (us ++ [] ++ [.group .paren gap inner closing span]) :=
              he.made.callThrough (hI.args ha)
            rw [List.append_nil] at hc
            exact hgo [_] rfl (by simp) ⟨hc, rfl⟩ h
          · cases h
        · rename_i gap inner closing span _
          split at h
          · cases h
            exact hstop rfl rfl
          · split at h
            · exact hgo [.group .brace gap inner closing span] rfl (by simp)
                (he.unsupportedThrough _ (by simp)) h
            · cases h
        · rename_i gap inner closing span _
          have hindex : ∀ {e₁ : Expr}, (if I.index inner || (e.isTypeName && I.types inner) then
                some (Expr.unsupported (e.span.through span)) else none) = some e₁ →
              e₁.OperandOf (us ++ [.group .square gap inner closing span]) := by
            intro e₁ h₁
            split at h₁
            · cases h₁
              exact he.unsupportedThrough [.group .square gap inner closing span] (by simp)
            · cases h₁
          dsimp only at h
          split at h
          · obtain ⟨e₁, h₁, h₂⟩ := Option.map_eq_some_iff.1 h
            cases h₂
            exact ⟨[_], rfl, hindex h₁⟩
          · rename_i next rest'
            split at h
            · cases h
            · rename_i e₁ h₁
              exact hgo [.group .square gap inner closing span, next] rfl (by simp)
                (withTypeArgs_operand hI he h₁) h
            · split at h
              · rename_i e₁ h₁
                exact hgo [.group .square gap inner closing span] rfl (by simp) (hindex h₁) h
              · cases h

theorem readOperand_operand (hI : I.MakesExprs) : Reader.Takes (readOperand I p) OperandOf := by
  intro ts e rest h
  induction hn : ts.length using Nat.strongRecOn generalizing ts e with
  | _ n ih =>
    -- An operand behind a prefix operator of one tree or two.
    have hoperand : ∀ (us : Forest) {ts' : Forest} {f : Expr → Expr}, ts = us ++ ts' → us ≠ [] →
        (∀ {u : Expr} {vs : Forest}, u.OperandOf vs → (f u).OperandOf (us ++ vs)) →
        (readOperand I p ts').map (fun q => (f q.1, q.2)) = some (e, rest) →
        ∃ vs, ts = vs ++ rest ∧ e.OperandOf vs := by
      intro us ts' f hts hus hf hr
      subst hts
      obtain ⟨⟨u, rest'⟩, hu, he⟩ := Option.map_eq_some_iff.1 hr
      cases he
      have hl : ts'.length < n := by
        have hp := List.length_pos_of_ne_nil hus
        rw [← hn, List.length_append]
        omega
      obtain ⟨vs, rfl, ho⟩ := ih ts'.length hl hu rfl
      exact ⟨us ++ vs, (List.append_assoc us vs _).symm, hf ho⟩
    have hpostfix : ∀ {ts' : Forest} {r : Option (Expr × Forest)},
        (∀ {u : Expr} {rest' : Forest}, r = some (u, rest') →
          ∃ us, ts' = us ++ rest' ∧ u.OperandOf us) →
        r.bind (fun q => readPostfix I p q.1 q.2) = some (e, rest) →
        ∃ us, ts' = us ++ rest ∧ e.OperandOf us := by
      intro ts' r hr hb
      obtain ⟨⟨u, rest'⟩, hu, he⟩ := Option.bind_eq_some_iff.1 hb
      obtain ⟨us, rfl, ho⟩ := hr hu
      obtain ⟨vs, rfl, hv⟩ := readPostfix_operand hI ho he
      exact ⟨us ++ vs, (List.append_assoc us vs rest).symm, hv⟩
    cases ts with
    | nil => cases h
    | cons t ts =>
      unfold readOperand at h
      dsimp only at h
      split at h
      · exact hpostfix (readPrimary_operand hI) h
      · split at h
        · rename_i dash ts'
          split at h
          · cases h
          · split at h
            · exact hpostfix (readTyped_operand I) h
            · exact hoperand [t, dash] rfl (by simp)
                (fun hu => ⟨hu.made.receiveThrough hu.top, rfl⟩) h
        · cases h
      · rename_i op _ hop
        obtain ⟨gap, span, rfl⟩ := Tree.operator?_eq_some hop
        split at h
        · rename_i hprefix
          exact hoperand [_] rfl (by simp)
            (fun hu => ⟨hu.made.unaryThrough hprefix hu.top, rfl⟩) h
        · cases h

/-! ## Chains and lists -/

theorem readBinary_made : Reader.Takes (readBinary p) Operator.MadeOf := by
  intro ts op rest h
  unfold readBinary at h
  split at h
  · cases h
  · rename_i t ts
    split at h
    · cases h
    · split at h
      · cases h
      · rename_i op' hop
        dsimp only at h
        split at h
        · rename_i hpair
          obtain ⟨gap, s, s', ts', hts⟩ := Forest.pair?_eq_some hpair
          cases hts
          cases h
          exact ⟨[_, _], rfl, .andNot⟩
        · split at h
          · rename_i hpair
            obtain ⟨gap, s, s', ts', hts⟩ := Forest.pair?_eq_some hpair
            cases hts
            cases h
            exact ⟨[_, _], rfl, .logicalAnd⟩
          · split at h
            · cases h
            · split at h
              · rename_i hprecedence
                obtain ⟨gap, span, rfl⟩ := Tree.operator?_eq_some hop
                cases h
                exact ⟨[_], rfl, .mark hprecedence⟩
              · cases h

theorem readChain_made (hI : I.MakesExprs) {e e' : Expr} {us ts rest : Forest} (he : e.MadeOf us)
    (h : readChain I p e ts = some (e', rest)) : ∃ vs, ts = vs ++ rest ∧ e'.MadeOf (us ++ vs) := by
  induction hn : ts.length using Nat.strongRecOn generalizing ts e us with
  | _ n ih =>
    rw [readChain] at h
    split at h
    · cases h
      exact ⟨[], rfl, by rwa [List.append_nil]⟩
    · rename_i op rest₁ hop
      split at h
      · cases h
      · rename_i u rest₂ hu
        split at h
        · rename_i hlt
          obtain ⟨os, rfl, ho⟩ := readBinary_made hop
          obtain ⟨vs, rfl, hv⟩ := readOperand_operand hI hu
          have hx := MadeOf.extend ho hv.made hv.top he
          obtain ⟨ws, rfl, hw⟩ := ih _ (hn ▸ hlt) hx h rfl
          refine ⟨os ++ vs ++ ws, by simp, ?_⟩
          rwa [List.append_assoc us, List.append_assoc] at hw
        · cases h

/-- An expression is made of the trees that it is read from. -/
theorem read_made (hI : I.MakesExprs) : Reader.Takes (read I p) MadeOf := by
  intro ts e rest h
  obtain ⟨⟨u, rest'⟩, hu, hc⟩ := Option.bind_eq_some_iff.1 h
  obtain ⟨us, rfl, ho⟩ := readOperand_operand hI hu
  obtain ⟨vs, rfl, he⟩ := readChain_made hI ho.made hc
  exact ⟨us ++ vs, (List.append_assoc us vs rest).symm, he⟩

/-- Expressions with commas between them. A lone one takes all of the trees. -/
structure ListOf (es : List Expr) (us : Forest) : Prop where
  ne_nil : us ≠ []
  along : Along MadeOf es us
  single : ∀ e, es = [e] → e.MadeOf us

theorem MadeOf.listOf {e : Expr} {us : Forest} (h : e.MadeOf us) : ListOf [e] us := by
  refine ⟨h.ne_nil, .singleton h, ?_⟩
  rintro e' he
  cases he
  exact h

theorem readList_made (hI : I.MakesExprs) : Reader.Takes (readList I p) ListOf := by
  intro ts es rest h
  obtain ⟨⟨e, rest'⟩, he, hr⟩ := Option.bind_eq_some_iff.1 h
  obtain ⟨us, rfl, hm⟩ := read_made hI he
  dsimp only at hr
  split at hr
  · rename_i comma rest''
    split at hr
    · obtain ⟨⟨es', rest₃⟩, hs, hr⟩ := Option.bind_eq_some_iff.1 hr
      cases hr
      obtain ⟨ws, rfl, a, as, vs, xs, rfl, rfl, ha, has⟩ :=
        Reader.Takes.separated (read_made hI) hs
      refine ⟨us ++ comma :: (vs ++ xs), by simp, by simp, .consRead hm ?_, by simp⟩
      exact .cons [comma] ha has
    · cases hr
      exact ⟨us, rfl, hm.listOf⟩
  · cases hr
    exact ⟨us, rfl, hm.listOf⟩

/-! ## Contents of brackets -/

theorem readWhole_made (hI : I.MakesExprs) {ts : Forest} {e : Expr} (h : readWhole I ts = some e) :
    e.MadeOf ts :=
  Reader.Takes.whole (read_made hI) h

theorem readArg_made (hI : I.MakesExprs) {ts : Forest} {e : Expr} (h : readArg I ts = some e) :
    e.MadeOf ts := by
  unfold readArg at h
  split at h
  · rename_i hr
    cases h
    obtain ⟨us, rfl, hm⟩ := read_made hI hr
    rwa [List.append_nil]
  · rename_i dots hr
    obtain ⟨us, rfl, hm⟩ := read_made hI hr
    split at h
    · cases h
      exact hm.unsupportedThrough [dots] (by simp)
    · cases h
  · cases h

theorem readArgs_made (hI : I.MakesExprs) {ts : Forest} {es : List Expr}
    (h : readArgs I ts = some es) : Along MadeOf es ts :=
  Forest.members_mapM (fun _ _ => readArg_made hI) h

theorem readTypedArgs_made (hI : I.MakesExprs) {ts : Forest} {es : List Expr}
    (h : readTypedArgs I ts = some es) : Along MadeOf es ts := by
  have ha := Forest.members_along ts
  unfold readTypedArgs at h
  split at h
  · cases h
    exact .nil
  · rename_i part parts hparts
    obtain ⟨type, ht, h⟩ := Option.bind_eq_some_iff.1 h
    obtain ⟨args, hargs, h⟩ := Option.bind_eq_some_iff.1 h
    cases h
    rw [hparts] at ha
    cases ha with
    | cons skipped hpart hrest =>
      subst hpart
      have hm := Reader.Takes.whole (TypeExpr.read_made I false) ht
      have htype : (Expr.unsupported type.span).MadeOf part := by
        rw [hm.span_eq]
        exact .unsupported hm.ne_nil
      exact .cons skipped htype (hrest.mapM (fun _ _ => readWhole_made hI) hargs)

end Expr

/-! ## Depth -/

namespace Interior

theorem makesExprs_none : Interior.none.MakesExprs where
  expr h := by cases h
  args h := by cases h
  typedArgs h := by cases h

theorem MakesExprs.deepen {I : Interior} (h : I.MakesExprs) : I.deepen.MakesExprs :=
  ⟨Expr.readWhole_made h, Expr.readArgs_made h, Expr.readTypedArgs_made h⟩

end Interior

end Recast
