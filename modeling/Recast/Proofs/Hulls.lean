import Recast.Grammar.Interior
import Recast.Proofs.Spread

/-!
# Hulls

The span of trees that were read together is their hull (`Forest.hull`), from the first to the last
of them. In a placed forest it is a range of the text that is not empty.

A reader finds the parts of a node in stretches of the trees that it takes, one after the other, at
the same level of brackets or deeper (`Forest.Carries`). In a placed forest this is all that the
spans of the parts need to be in order inside the span of the node (`Forest.Carries.within`), so the
readers below are never asked about offsets.
-/

namespace Recast

/-! ## Hulls -/

namespace Forest

variable {src : Source} {ts us vs rest : Forest}

/-- The span from the first tree to the last. -/
def hull : Forest → Span
  | [] => .none
  | t :: ts => t.span.through ((t :: ts).getLastD t).span

@[simp] theorem hull_singleton (t : Tree) : hull [t] = t.span := rfl

theorem hull_start {t : Tree} : (hull (t :: ts)).start = t.span.start := rfl

theorem hull_stop (h : us ≠ []) : (hull us).stop = (us.getLast h).span.stop := by
  cases us with
  | nil => exact absurd rfl h
  | cons t us => rw [hull, Span.through_stop, List.getLastD_cons, List.getLast_eq_getLastD]

theorem hull_append (hu : us ≠ []) (hv : vs ≠ []) :
    hull (us ++ vs) = (hull us).through (hull vs) := by
  have hn : us ++ vs ≠ [] := by simp [hu]
  have hs : (hull (us ++ vs)).stop = (hull vs).stop := by
    rw [hull_stop hn, hull_stop hv, List.getLast_append_of_ne_nil hn hv]
  cases us with
  | nil => exact absurd rfl hu
  | cons t us =>
    have h : hull (t :: us ++ vs) = ⟨t.span.start, (hull (t :: us ++ vs)).stop⟩ := rfl
    rw [h, hs]
    rfl

theorem hull_cons {t : Tree} (hu : us ≠ []) : hull (t :: us) = t.span.through (hull us) :=
  hull_append (List.cons_ne_nil t []) hu

/-- The trees read from a forest are those before the rest. -/
theorem used_append (us rest : Forest) : (us ++ rest).used rest = us := by
  simp [used]

theorem spanOf_append (us rest : Forest) : (us ++ rest).spanOf rest = hull us := by
  rw [spanOf, used_append]
  cases us <;> rfl

theorem spanOf_append_append (us vs rest : Forest) :
    (us ++ (vs ++ rest)).spanOf rest = hull (us ++ vs) := by
  rw [← List.append_assoc, spanOf_append]

theorem Placed.start_le_stop (h : Placed src us) {t : Tree} (ht : t ∈ us) :
    t.span.start ≤ t.span.stop :=
  (h.trees t ht).covers.ordered

theorem Placed.hull_encloses (h : Placed src us) {t : Tree} (ht : t ∈ us) :
    (hull us).Encloses t.span := by
  have hn : us ≠ [] := List.ne_nil_of_mem ht
  constructor
  · cases us with
    | nil => exact absurd rfl hn
    | cons u us =>
      rw [hull_start]
      rcases List.mem_cons.1 ht with rfl | ht
      · exact Nat.le_refl _
      · have hs : Placed src ([u] ++ us) := h
        have hb : u.span.Before t.span := hs.before List.mem_cons_self ht
        have hu := h.start_le_stop (t := u) (by simp)
        exact Nat.le_trans hu hb
  · rw [hull_stop hn]
    have hd : us.dropLast ++ [us.getLast hn] = us := List.dropLast_append_getLast hn
    rw [← hd] at ht
    rcases List.mem_append.1 ht with ht | ht
    · have hb : t.span.Before (us.getLast hn).span := by
        rw [← hd] at h
        exact h.before ht (by simp)
      exact Nat.le_trans hb (h.start_le_stop (List.getLast_mem hn))
    · obtain rfl := List.mem_singleton.1 ht
      exact Nat.le_refl _

theorem Placed.covers_hull (h : Placed src us) (hn : us ≠ []) : src.Covers (hull us) := by
  cases us with
  | nil => exact absurd rfl hn
  | cons t us =>
    have hl : ((t :: us).getLastD t) = (t :: us).getLast hn := by
      rw [List.getLastD_cons, List.getLast_eq_getLastD]
    rw [hull, hl]
    have ht := h.hull_encloses (t := t) (by simp)
    have hfirst := (h.trees t (by simp)).covers
    have hlt : t.span.start < ((t :: us).getLast hn).span.stop := by
      rw [← hull_stop hn]
      exact Nat.lt_of_lt_of_le hfirst.nonempty ht.2
    have hlast := (h.trees _ (List.getLast_mem hn)).covers.toCuts
    exact ⟨hfirst.toCuts.through hlast (Nat.le_of_lt hlt), hlt⟩

/-! ## Parts -/

/-- Each of the spans is the hull of some of the trees, or of trees inside one of them, and these
follow one another. -/
inductive Carries : Forest → List Span → Prop
  | nil {ts : Forest} : Carries ts []
  | skip {t : Tree} {ts : Forest} {ss : List Span} (h : Carries ts ss) : Carries (t :: ts) ss
  | stretch {us ts : Forest} {ss : List Span} (hu : us ≠ []) (h : Carries ts ss) :
      Carries (us ++ ts) (hull us :: ss)
  | inside {b : Bracket} {gap closing : Gap} {inner ts : Forest} {span : Span} {ss rs : List Span}
      (hi : Carries inner ss) (h : Carries ts rs) :
      Carries (.group b gap inner closing span :: ts) (ss ++ rs)

namespace Carries

variable {ss rs : List Span}

theorem of_ne_nil (hu : us ≠ []) : Carries us [hull us] := by
  have h : Carries (us ++ []) [hull us] := .stretch hu .nil
  rwa [List.append_nil] at h

theorem skips (us : Forest) (h : Carries ts ss) : Carries (us ++ ts) ss := by
  induction us with
  | nil => exact h
  | cons t us ih => exact ih.skip

theorem append (h : Carries us ss) (k : Carries vs rs) : Carries (us ++ vs) (ss ++ rs) := by
  induction h with
  | nil => exact k.skips _
  | skip _ ih => exact ih.skip
  | stretch hu _ ih =>
    rw [List.append_assoc, List.cons_append]
    exact .stretch hu ih
  | inside hi _ _ ih =>
    rw [List.cons_append, List.append_assoc]
    exact .inside hi ih

/-- What is carried inside a group, by the group. -/
theorem group {b : Bracket} {gap closing : Gap} {inner : Forest} {span : Span}
    (h : Carries inner ss) : Carries [.group b gap inner closing span] ss := by
  have hg : Carries [.group b gap inner closing span] (ss ++ []) := .inside h .nil
  rwa [List.append_nil] at hg

/-- A span that encloses placed trees holds what they carry. -/
theorem within {span : Span} (h : Carries ts ss) (hp : Placed src ts)
    (he : ∀ t ∈ ts, span.Encloses t.span) : span.Holds ss := by
  induction h generalizing span with
  | nil => exact .nil span
  | skip _ ih => exact ih hp.tail fun t ht => he t (List.mem_cons_of_mem _ ht)
  | @stretch us ts ss hu _ ih =>
    have hx : span.Encloses (hull us) := by
      have hl := he _ (List.mem_append_left ts (List.getLast_mem hu))
      have hd := he _ (List.mem_append_left ts (List.head_mem hu))
      cases us with
      | nil => exact absurd rfl hu
      | cons t us =>
        refine ⟨hd.1, ?_⟩
        rw [hull_stop hu]
        exact hl.2
    -- what follows the stretch lies between its end and the end of `span`
    have hr : Span.Holds ⟨(hull us).stop, span.stop⟩ ss := ih hp.right fun t ht =>
      ⟨by rw [hull_stop hu]; exact hp.before (List.getLast_mem hu) ht,
        (he t (List.mem_append_right us ht)).2⟩
    refine ⟨List.forall_mem_cons.2 ⟨hx, fun s hs => ?_⟩, List.pairwise_cons.2 ⟨?_, hr.apart⟩⟩
    · have ho := (hp.left.covers_hull hu).ordered
      have hss := hr.inside s hs
      exact ⟨Nat.le_trans hx.1 (Nat.le_trans ho hss.1), hss.2⟩
    · intro s hs
      exact (hr.inside s hs).1
  | @inside b gap closing inner ts g ss rs _ _ ihi ih =>
    have hg := hp.head
    have hx : span.Encloses g := he _ List.mem_cons_self
    have hi := ihi hg.inner hg.encloses
    have hs : Placed src ([.group b gap inner closing g] ++ ts) := hp
    have hr : Span.Holds ⟨g.stop, span.stop⟩ rs := ih hp.tail fun t ht =>
      ⟨hs.before List.mem_cons_self ht, (he t (List.mem_cons_of_mem _ ht)).2⟩
    have ho : g.start ≤ g.stop := hg.covers.ordered
    refine ⟨fun s hs => ?_, List.pairwise_append.2 ⟨hi.apart, hr.apart, fun s hs r hr' => ?_⟩⟩
    · rcases List.mem_append.1 hs with hs | hs
      · exact hx.trans (hi.inside s hs)
      · have hss := hr.inside s hs
        exact ⟨Nat.le_trans hx.1 (Nat.le_trans ho hss.1), hss.2⟩
    · exact Nat.le_trans (hi.inside s hs).2 (hr.inside r hr').1

/-- The hull of placed trees holds what they carry. -/
theorem hull_holds (h : Carries ts ss) (hp : Placed src ts) : (hull ts).Holds ss :=
  h.within hp fun _ ht => hp.hull_encloses ht

end Carries

/-! ## Lists of phrases -/

/-- The members of a list were read from stretches of the trees, one after the other. -/
inductive Along {α : Type} (R : α → Forest → Prop) : List α → Forest → Prop
  | nil {ts : Forest} : Along R [] ts
  | cons {a : α} {as : List α} {us ts : Forest} (skipped : Forest) (ha : R a us)
      (h : Along R as ts) : Along R (a :: as) (skipped ++ us ++ ts)

namespace Along

variable {α : Type} {R : α → Forest → Prop} {as bs : List α}

theorem singleton {a : α} (h : R a us) : Along R [a] us := by
  have hs : Along R [a] ([] ++ us ++ []) := .cons [] h .nil
  rwa [List.append_nil] at hs

theorem skips (us : Forest) (h : Along R as ts) : Along R as (us ++ ts) := by
  cases h with
  | nil => exact .nil
  | cons skipped ha h =>
    rw [List.append_assoc, ← List.append_assoc us, ← List.append_assoc]
    exact .cons (us ++ skipped) ha h

theorem append (h : Along R as us) (k : Along R bs vs) : Along R (as ++ bs) (us ++ vs) := by
  induction h with
  | nil => exact k.skips _
  | cons skipped ha _ ih =>
    rw [List.append_assoc, List.cons_append]
    exact .cons skipped ha ih

theorem consRead {a : α} (ha : R a us) (h : Along R as ts) : Along R (a :: as) (us ++ ts) :=
  .cons [] ha h

theorem filter {p : α → Bool} (h : Along R as ts) : Along R (as.filter p) ts := by
  induction h with
  | nil => exact .nil
  | @cons a as us ts skipped ha _ ih =>
    rw [List.filter_cons]
    split
    · exact .cons skipped ha ih
    · exact ih.skips (skipped ++ us)

end Along

end Forest

end Recast
