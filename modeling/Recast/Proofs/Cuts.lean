import Recast.Text.Source
import Mathlib.Data.List.Basic

/-!
# Boundaries and cuts

Where a source text can be cut. An offset is a boundary if it stands between two characters, and
a span cuts the text if its ends are boundaries in order. `Source.slice?_eq_some_iff` says what a
slice is without counting bytes: the text falls into what is before, the slice and what is after.
From it, a span has a slice exactly if it cuts the text (`Source.slice?_isSome_iff`), so two spans
that do can be joined from the start of one to the end of the other.
-/

namespace Recast

/-! ## Prefixes by bytes -/

/-- Of two ways to split a text, the one that takes fewer bytes takes a part of the other. -/
theorem isPrefix_of_utf8Length_le {as bs cs ds : List Char} (h : as ++ bs = cs ++ ds)
    (hle : utf8Length as ≤ utf8Length cs) : as <+: cs := by
  rcases List.append_eq_append_iff.1 h with ⟨es, rfl, -⟩ | ⟨es, rfl, -⟩
  · exact List.prefix_append as es
  · -- `as` is longer by `es`, which then has no bytes and so no characters.
    cases es with
    | nil => simp
    | cons c es =>
      have hc := c.utf8Size_pos
      rw [utf8Length_append, utf8Length_cons] at hle
      omega

theorem utf8ByteSize_ofList (cs : List Char) : (String.ofList cs).utf8ByteSize = utf8Length cs := by
  induction cs with
  | nil => rfl
  | cons c cs ih =>
    have h : String.ofList (c :: cs) = String.singleton c ++ String.ofList cs := by
      apply String.toList_injective
      simp
    rw [h, String.utf8ByteSize_append, String.utf8ByteSize_singleton, ih, utf8Length_cons]

namespace Source

variable {src : Source}

theorem size_eq (src : Source) : src.size = utf8Length src.chars := by
  rw [size, chars, ← utf8ByteSize_ofList, String.ofList_toList]

/-! ## Boundaries -/

/-- An offset between two characters of a text, or at one of its ends. -/
def Boundary (src : Source) (n : Nat) : Prop :=
  ∃ before after, src.chars = before ++ after ∧ utf8Length before = n

theorem Boundary.le_size {n : Nat} (h : src.Boundary n) : n ≤ src.size := by
  obtain ⟨before, after, hs, rfl⟩ := h
  rw [size_eq, hs, utf8Length_append]
  omega

theorem boundary_size (src : Source) : src.Boundary src.size :=
  ⟨src.chars, [], by simp, src.size_eq.symm⟩

/-- A span whose ends are boundaries of a text, in order. -/
structure Cuts (src : Source) (span : Span) : Prop where
  ordered : span.start ≤ span.stop
  within : span.stop ≤ src.size
  start : src.Boundary span.start
  stop : src.Boundary span.stop

/-- A span that cuts a text and is not empty. -/
structure Covers (src : Source) (span : Span) : Prop extends Cuts src span where
  nonempty : span.start < span.stop

/-! ## Slices -/

/-- A slice stands between what is before it and what is after it. -/
theorem slice?_eq_some_iff {span : Span} {t : String} :
    src.slice? span = some t ↔
      ∃ before after, src.chars = before ++ t.toList ++ after ∧
        span.start = utf8Length before ∧ span.stop = span.start + utf8Length t.toList := by
  constructor
  · intro h
    unfold slice? at h
    split at h
    · rename_i hle
      obtain ⟨⟨before, rest⟩, hb, h⟩ := Option.bind_eq_some_iff.1 h
      obtain ⟨⟨front, after⟩, hf, h⟩ := Option.bind_eq_some_iff.1 h
      cases h
      obtain ⟨hs, hl⟩ := eq_append_of_splitBytes? hb
      obtain ⟨hr, hm⟩ := eq_append_of_splitBytes? hf
      refine ⟨before, after, ?_, hl.symm, ?_⟩
      · rw [hs, hr, String.toList_ofList, List.append_assoc]
      · rw [String.toList_ofList, hm]
        omega
    · cases h
  · intro h
    obtain ⟨before, after, hs, hb, he⟩ := h
    have hd : span.stop - span.start = utf8Length t.toList := by omega
    unfold slice?
    rw [if_pos (by omega), hd, hb, hs, List.append_assoc, splitBytes?_append]
    simp [splitBytes?_append]

/-- A span with a slice cuts the text. -/
theorem Cuts.of_slice? {span : Span} {t : String} (h : src.slice? span = some t) :
    src.Cuts span := by
  obtain ⟨before, after, hs, hb, he⟩ := slice?_eq_some_iff.1 h
  have hstop : src.Boundary span.stop :=
    ⟨before ++ t.toList, after, hs, by rw [utf8Length_append, he, hb]⟩
  refine ⟨by omega, hstop.le_size, ⟨before, t.toList ++ after, ?_, hb.symm⟩, hstop⟩
  rw [hs, List.append_assoc]

theorem Cuts.slice? {span : Span} (h : src.Cuts span) : ∃ t, src.slice? span = some t := by
  obtain ⟨before, rest, hs, hb⟩ := h.start
  obtain ⟨front, after, hf, he⟩ := h.stop
  have ho := h.ordered
  obtain ⟨mid, rfl⟩ := isPrefix_of_utf8Length_le (hs.symm.trans hf) (by omega)
  rw [utf8Length_append] at he
  refine ⟨String.ofList mid, slice?_eq_some_iff.2 ⟨before, after, ?_, hb.symm, ?_⟩⟩
  · rw [hf, String.toList_ofList]
  · rw [String.toList_ofList]
    omega

/-- Exactly the spans that cut the text have a slice. -/
theorem slice?_isSome_iff {span : Span} : (src.slice? span).isSome = true ↔ src.Cuts span := by
  rw [Option.isSome_iff_exists]
  constructor
  · intro h
    obtain ⟨t, ht⟩ := h
    exact .of_slice? ht
  · exact Cuts.slice?

/-- From the start of one span to the end of another that does not end before it. -/
theorem Cuts.through {a b : Span} (ha : src.Cuts a) (hb : src.Cuts b) (h : a.start ≤ b.stop) :
    src.Cuts (a.through b) :=
  ⟨h, hb.within, ha.start, hb.stop⟩

end Source

/-! ## Spans side by side -/

namespace Span

/-- `a` ends before `b` begins. -/
def Before (a b : Span) : Prop := a.stop ≤ b.start

/-- The spans of the parts of a node: they lie inside its span, apart from each other and in
order. -/
structure Holds (span : Span) (parts : List Span) : Prop where
  inside : ∀ p ∈ parts, span.Encloses p
  apart : parts.Pairwise Before

theorem Holds.nil (span : Span) : span.Holds [] := ⟨by simp, .nil⟩

end Span

end Recast
