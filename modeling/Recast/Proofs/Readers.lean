import Recast.Proofs.Derivation

/-!
# What readers take

A reader takes trees from the head of a forest and leaves the rest. `Reader.Takes` says that a
relation holds between what a reader finds and the trees that it took. It is kept by the
combinators that lists of phrases are read with, and by the division of a forest at its commas
(`Forest.members_mapM`).
-/

namespace Recast

open Forest (hull Along)

/-! ## Trees that are leaves -/

namespace Tree

theorem ident?_eq_some {t : Tree} {x : Ident} (h : t.ident? = some x) :
    ∃ gap, t = .leaf ⟨.word x.name, gap, x.span⟩ := by
  unfold ident? at h
  split at h
  · cases h
    exact ⟨_, rfl⟩
  · cases h

theorem isMark_eq_true {t : Tree} {m : Mark} (h : t.isMark m = true) :
    ∃ gap span, t = .leaf ⟨.mark m, gap, span⟩ := by
  unfold isMark at h
  split at h
  · obtain rfl := beq_iff_eq.1 h
    exact ⟨_, _, rfl⟩
  · cases h

theorem operator?_eq_some {t : Tree} {op : Operator} (h : t.operator? = some op) :
    ∃ gap span, t = .leaf ⟨.mark (.operator op), gap, span⟩ := by
  unfold operator? at h
  split at h
  · cases h
    exact ⟨_, _, rfl⟩
  · cases h

theorem touches_eq_true {t : Tree} (h : t.touches = true) : t.gap = .none := beq_iff_eq.1 h

end Tree

/-- Two operators that touch are two leaves, the second without a gap. -/
theorem Forest.pair?_eq_some {ts : Forest} {a b : Operator} (h : ts.pair? = some (a, b)) :
    ∃ gap s t rest, ts = .leaf ⟨.mark (.operator a), gap, s⟩
      :: .leaf ⟨.mark (.operator b), .none, t⟩ :: rest := by
  unfold Forest.pair? at h
  split at h
  · rename_i s t rest
    split at h
    · rename_i a' b' ha hb
      split at h
      · rename_i ht
        cases h
        obtain ⟨gap, s, rfl⟩ := Tree.operator?_eq_some ha
        obtain ⟨gap', t, rfl⟩ := Tree.operator?_eq_some hb
        have hg : gap' = .none := Tree.touches_eq_true ht
        exact ⟨gap, s, t, rest, by rw [hg]⟩
      · cases h
    · cases h
  · cases h

theorem Forest.cons_of_pair? {ts : Forest} {p : Operator × Operator} (h : ts.pair? = some p) :
    ∃ s t rest, ts = s :: t :: rest := by
  obtain ⟨gap, s, t, rest, rfl⟩ := pair?_eq_some h
  exact ⟨_, _, rest, rfl⟩

/-- The end of a phrase takes at most one tree. -/
theorem Forest.skipEnd?_eq_some {ts next : Forest} (h : ts.skipEnd? = some next) :
    ∃ us, ts = us ++ next := by
  unfold Forest.skipEnd? at h
  split at h
  · cases h
  · rename_i t rest
    split at h
    · cases h
      exact ⟨[], rfl⟩
    · split at h
      · cases h
        exact ⟨[t], rfl⟩
      · cases h

/-! ## Readers -/

namespace Reader

variable {α : Type} {R : α → Forest → Prop} {read : Reader α}

/-- What a reader finds is related to the trees that it takes. -/
def Takes (read : Reader α) (R : α → Forest → Prop) : Prop :=
  ∀ {ts : Forest} {a : α} {rest : Forest}, read ts = some (a, rest) → ∃ us, ts = us ++ rest ∧ R a us

theorem Takes.whole (h : read.Takes R) {ts : Forest} {a : α} (hw : whole read ts = some a) :
    R a ts := by
  unfold Reader.whole at hw
  split at hw
  · rename_i hr
    cases hw
    obtain ⟨us, rfl, ha⟩ := h hr
    rwa [List.append_nil]
  · cases hw

/-- Phrases between separators stand one after the other. -/
theorem Takes.separated {line : Bool} {m : Mark} (h : read.Takes R) {ts rest : Forest}
    {as : List α} (hr : separated line m read ts = some (as, rest)) :
    ∃ us, ts = us ++ rest ∧ ∃ a as' vs ws,
      as = a :: as' ∧ us = vs ++ ws ∧ R a vs ∧ Along R as' ws := by
  induction hn : ts.length using Nat.strongRecOn generalizing ts as with
  | _ n ih =>
    rw [Reader.separated] at hr
    split at hr
    · cases hr
    · rename_i a ha
      cases hr
      obtain ⟨us, rfl, hR⟩ := h ha
      exact ⟨us, rfl, a, [], us, [], rfl, (List.append_nil us).symm, hR, .nil⟩
    · rename_i a t rest' ha
      obtain ⟨us, rfl, hR⟩ := h ha
      split at hr
      · split at hr
        · rename_i hlt
          obtain ⟨⟨as', rest''⟩, hs, he⟩ := Option.map_eq_some_iff.1 hr
          cases he
          obtain ⟨vs, rfl, b, bs, xs, ys, rfl, rfl, hb, hbs⟩ := ih _ (hn ▸ hlt) hs rfl
          refine ⟨us ++ t :: (xs ++ ys), by simp, a, b :: bs, us, t :: (xs ++ ys), rfl, rfl, hR, ?_⟩
          exact .cons [t] hb hbs
        · cases hr
      · cases hr
        exact ⟨us, rfl, a, [], us, [], rfl, (List.append_nil us).symm, hR, .nil⟩

/-- A list of phrases read one after the other, with what ends a phrase skipped before the next
one. -/
inductive Listed (read : Reader α) : Forest → List α → Forest → Prop
  | nil (ts : Forest) : Listed read ts [] ts
  | last {ts : Forest} {a : α} {rest : Forest} (ha : read ts = some (a, rest)) :
    Listed read ts [a] rest
  | cons {ts : Forest} {a : α} {us next : Forest} {as : List α} {rest : Forest}
    (ha : read ts = some (a, us ++ next)) (has : Listed read next as rest) :
    Listed read ts (a :: as) rest

theorem listed_of_lines {stop : Tree → Bool} {ts rest : Forest} {as : List α}
    (hr : lines stop read ts = .ok (as, rest)) : Listed read ts as rest := by
  induction hn : ts.length using Nat.strongRecOn generalizing ts as with
  | _ n ih =>
    rw [Reader.lines] at hr
    split at hr
    · cases hr
      exact .nil _
    · split at hr
      · cases hr
      · rename_i a ha
        cases hr
        exact .last ha
      · rename_i a t rest' ha
        split at hr
        · rename_i next hnext
          split at hr
          · rename_i hlt
            obtain ⟨us, hus⟩ := Forest.skipEnd?_eq_some hnext
            rw [hus] at ha
            cases hl : Reader.lines stop read next with
            | error e => simp [hl, Except.map] at hr
            | ok q =>
              obtain ⟨bs, rest''⟩ := q
              simp only [hl, Except.map, Except.ok.injEq, Prod.mk.injEq] at hr
              obtain ⟨rfl, rfl⟩ := hr
              exact .cons ha (ih _ (hn ▸ hlt) hl rfl)
          · cases hr
        · split at hr
          · cases hr
            exact .last ha
          · cases hr

/-- Phrases of a list stand one after the other. -/
theorem Takes.listed (h : read.Takes R) {ts rest : Forest} {as : List α}
    (hl : Listed read ts as rest) : ∃ us, ts = us ++ rest ∧ Along R as us := by
  induction hl with
  | nil ts => exact ⟨[], rfl, .nil⟩
  | last ha =>
    obtain ⟨us, rfl, hR⟩ := h ha
    exact ⟨us, rfl, .singleton hR⟩
  | @cons ts a vs next as rest ha _ ih =>
    obtain ⟨us, rfl, hR⟩ := h ha
    obtain ⟨ws, rfl, hbs⟩ := ih
    exact ⟨us ++ (vs ++ ws), by simp, .consRead hR (hbs.skips vs)⟩

theorem Takes.lines {stop : Tree → Bool} (h : read.Takes R) {ts rest : Forest} {as : List α}
    (hr : lines stop read ts = .ok (as, rest)) : ∃ us, ts = us ++ rest ∧ Along R as us :=
  h.listed (listed_of_lines hr)

theorem Takes.allLines (h : read.Takes R) {ts : Forest} {as : List α}
    (hr : allLines read ts = some as) : Along R as ts := by
  unfold Reader.allLines at hr
  split at hr
  · rename_i hl
    cases hr
    obtain ⟨us, rfl, ha⟩ := h.lines hl
    rwa [List.append_nil]
  · cases hr

end Reader

/-! ## Members -/

namespace Forest

/-- The first part of a forest is its head, and the others follow. -/
theorem splitOn_eq (m : Mark) (ts : Forest) :
    ∃ part parts rest, splitOn m ts = part :: parts ∧ ts = part ++ rest ∧ Along Eq parts rest := by
  induction ts with
  | nil => exact ⟨[], [], [], rfl, rfl, .nil⟩
  | cons t ts ih =>
    obtain ⟨part, parts, rest, hs, he, ha⟩ := ih
    rw [splitOn]
    split
    · refine ⟨[], part :: parts, t :: ts, by rw [hs], rfl, ?_⟩
      rw [he]
      exact .cons [t] rfl ha
    · rw [hs]
      exact ⟨t :: part, parts, rest, rfl, by rw [he, List.cons_append], ha⟩

theorem splitOn_along (m : Mark) (ts : Forest) : Along Eq (splitOn m ts) ts := by
  obtain ⟨part, parts, rest, hs, he, ha⟩ := splitOn_eq m ts
  rw [hs, he]
  exact .consRead rfl ha

theorem Along.dropLast {α : Type} {R : α → Forest → Prop} {as : List α} {ts : Forest}
    (h : Along R as ts) : Along R as.dropLast ts := by
  induction h with
  | nil => exact .nil
  | @cons a as us ts skipped ha h ih =>
    cases as with
    | nil => exact .nil
    | cons b bs => exact .cons skipped ha ih

theorem members_along (ts : Forest) : Along Eq (members ts) ts := by
  have h := splitOn_along .comma ts
  unfold members
  split
  · exact .nil
  · split
    · exact h.dropLast
    · exact h

/-- What is found in each member of a list follows one another. -/
theorem Along.mapM {α : Type} {R : α → Forest → Prop} {f : Forest → Option α}
    {parts : List Forest} {ts : Forest} {as : List α} (h : Along Eq parts ts)
    (hf : ∀ us a, f us = some a → R a us) (hm : parts.mapM f = some as) : Along R as ts := by
  induction h generalizing as with
  | nil =>
    cases hm
    exact .nil
  | @cons part parts us ts skipped ha _ ih =>
    subst ha
    rw [List.mapM_cons] at hm
    obtain ⟨a, ha, hm⟩ := Option.bind_eq_some_iff.1 hm
    obtain ⟨bs, hb, hm⟩ := Option.bind_eq_some_iff.1 hm
    cases hm
    exact .cons skipped (hf _ _ ha) (ih hb)

theorem members_mapM {α : Type} {R : α → Forest → Prop} {f : Forest → Option α} {ts : Forest}
    {as : List α} (hf : ∀ us a, f us = some a → R a us) (hm : (members ts).mapM f = some as) :
    Along R as ts :=
  (members_along ts).mapM hf hm

end Forest

end Recast
