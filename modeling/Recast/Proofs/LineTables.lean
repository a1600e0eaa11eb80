import Recast.Text.LineTable
import Mathlib.Data.List.GetD

/-!
# Looking up lines

The table of a text holds an offset for each line, in order (`LineTable.starts_build`), so the lines
that begin at an offset or before it are the first ones of the table. Halving finds the last of them
(`LineTable.index_eq`).
-/

namespace Recast.LineTable

/-! ## The pass over the bytes -/

/-- The offsets at which a line begins because of a newline in these bytes, the first of which is at
offset `i`. -/
def startsFrom : (i : Nat) → List UInt8 → List Nat
  | _, [] => []
  | i, b :: bytes =>
    if b = newline then held (i + 1) :: startsFrom (i + 1) bytes else startsFrom (i + 1) bytes

theorem toList_scan (starts : Array Nat) (i : Nat) (bytes : List UInt8) :
    (scan starts i bytes).toList = starts.toList ++ startsFrom i bytes := by
  induction bytes generalizing starts i with
  | nil => simp [scan, startsFrom]
  | cons b bytes ih =>
    rw [scan, startsFrom, ih]
    split <;> simp

/-- The first line begins at the start of the text, every other one after a newline. -/
theorem starts_build (bytes : List UInt8) :
    (build bytes).starts.toList = 0 :: startsFrom 0 bytes := by
  rw [build, toList_scan]
  rfl

theorem startsFrom_append (i : Nat) (front back : List UInt8) :
    startsFrom i (front ++ back) = startsFrom i front ++ startsFrom (i + front.length) back := by
  induction front generalizing i with
  | nil => rfl
  | cons b front ih =>
    have hi : i + 1 + front.length = i + (b :: front).length := by
      rw [List.length_cons]
      omega
    rw [List.cons_append, startsFrom, startsFrom, ih, hi]
    split <;> rfl

@[simp] theorem length_startsFrom (i : Nat) (bytes : List UInt8) :
    (startsFrom i bytes).length = bytes.count newline := by
  induction bytes generalizing i with
  | nil => rfl
  | cons b bytes ih =>
    rw [startsFrom]
    by_cases hb : b = newline
    · rw [if_pos hb, List.length_cons, ih, hb, List.count_cons_self]
    · rw [if_neg hb, ih, List.count_cons_of_ne hb]

/-- Below the limit each start is kept as it is: it stands after its newline. -/
theorem bounds_of_mem_startsFrom {i : Nat} {bytes : List UInt8} {x : Nat}
    (hsize : i + bytes.length < Span.limit) (hx : x ∈ startsFrom i bytes) :
    i < x ∧ x ≤ i + bytes.length := by
  induction bytes generalizing i with
  | nil => cases hx
  | cons b bytes ih =>
    rw [List.length_cons] at hsize ⊢
    have htail : x ∈ startsFrom (i + 1) bytes → i < x ∧ x ≤ i + (bytes.length + 1) := by
      intro h
      have hb := ih (by omega) h
      omega
    rw [startsFrom] at hx
    split at hx
    · rcases List.mem_cons.1 hx with rfl | hx
      · rw [held, Nat.min_eq_left (by omega)]
        omega
      · exact htail hx
    · exact htail hx

/-! ## The search -/

/-- The lines that begin at an offset or before it are the first `count` lines of the table. -/
structure Reaches (t : LineTable) (offset count : Nat) : Prop where
  pos : 0 < count
  le_size : count ≤ t.starts.size
  start_le_iff : ∀ index < t.starts.size, t.start index ≤ offset ↔ index < count

/-- Two runs of lines, those that do not begin after the offset and those that do. -/
theorem Reaches.of_append {t : LineTable} {offset : Nat} {front back : List Nat}
    (hstarts : t.starts.toList = front ++ back) (hpos : front ≠ [])
    (hfront : ∀ x ∈ front, x ≤ offset) (hback : ∀ x ∈ back, offset < x) :
    t.Reaches offset front.length := by
  have hsize : t.starts.size = front.length + back.length := by
    rw [← Array.length_toList, hstarts, List.length_append]
  have hstart (index : Nat) : t.start index = (front ++ back).getD index 0 := by
    rw [start, ← hstarts, Array.getD_eq_getD_getElem?, List.getD_eq_getElem?_getD,
      Array.getElem?_toList]
  refine ⟨List.length_pos_iff.2 hpos, by omega, fun index hindex => ?_⟩
  rw [hstart]
  constructor
  · intro hle
    refine Nat.lt_of_not_le fun hge => ?_
    rw [List.getD_append_right _ _ _ _ (by omega)] at hle
    have hmem : back.getD (index - front.length) 0 ∈ back := by
      rw [List.getD_eq_getElem _ _ (by omega)]
      exact List.getElem_mem _
    have hgt := hback _ hmem
    omega
  · intro hlt
    rw [List.getD_append _ _ _ _ hlt, List.getD_eq_getElem _ _ hlt]
    exact hfront _ (List.getElem_mem _)

variable {t : LineTable} {offset count : Nat}

/-- While the last line that does not begin after the offset is among the lines that are left,
halving finds it. -/
theorem narrow_eq (h : t.Reaches offset count) {base size : Nat} (hbase : base < count)
    (hcount : count ≤ base + size) (hsize : base + size ≤ t.starts.size) :
    t.narrow offset base size = count - 1 := by
  fun_induction t.narrow offset base size with
  | case1 base size hone => omega
  | case2 base size hmore middle ih =>
    -- the middle line tells in which half the last of the first `count` lines is
    have hiff := h.start_le_iff middle (by omega)
    by_cases hafter : offset < t.start middle
    · rw [dif_pos hafter] at ih
      rw [if_pos hafter]
      exact ih hbase (by omega) (by omega)
    · rw [dif_neg hafter] at ih
      rw [if_neg hafter]
      exact ih (by omega) (by omega) (by omega)

/-- The search ends at the last line that does not begin after the offset, whether the offset is its
start or not. -/
theorem index_eq (h : t.Reaches offset count) : t.index offset = count - 1 := by
  have hpos := h.pos
  have hle := h.le_size
  have hnarrow : t.narrow offset 0 t.starts.size = count - 1 :=
    narrow_eq h hpos (by omega) (by omega)
  have hstart : t.start (count - 1) ≤ offset := (h.start_le_iff _ (by omega)).2 (by omega)
  rw [index, search, if_neg (by omega), hnarrow]
  dsimp only
  by_cases hexact : t.start (count - 1) = offset
  · rw [if_pos hexact]
  · rw [if_neg hexact, if_pos (by omega)]
    rfl

/-! ## The table of a text -/

section Build

variable {front back : List UInt8}

theorem build_reaches (hsize : (front ++ back).length < Span.limit) (hle : front.length ≤ offset)
    (hback : ∀ x ∈ startsFrom front.length back, offset < x) :
    (build (front ++ back)).Reaches offset (front.count newline + 1) := by
  rw [List.length_append] at hsize
  have hstarts : (build (front ++ back)).starts.toList
      = (0 :: startsFrom 0 front) ++ startsFrom front.length back := by
    rw [starts_build, startsFrom_append, Nat.zero_add, List.cons_append]
  have hreach := Reaches.of_append hstarts (List.cons_ne_nil _ _) (fun x hx => ?_) hback
  · rwa [List.length_cons, length_startsFrom] at hreach
  · rcases List.mem_cons.1 hx with rfl | hx
    · exact Nat.zero_le _
    · have hbounds := bounds_of_mem_startsFrom (by omega) hx
      omega

/-- The line of an offset in the text is the one after the newlines before it. -/
theorem index_build (hsize : (front ++ back).length < Span.limit) :
    (build (front ++ back)).index front.length = front.count newline := by
  have hreach := build_reaches hsize (Nat.le_refl _) (fun x hx =>
    (bounds_of_mem_startsFrom (by rwa [List.length_append] at hsize) hx).1)
  exact index_eq hreach

/-- The line of an offset past the end is the last one. -/
theorem index_build_of_le {bytes : List UInt8} (hsize : bytes.length < Span.limit)
    (hle : bytes.length ≤ offset) : (build bytes).index offset = bytes.count newline := by
  have hreach : (build (bytes ++ [])).Reaches offset (bytes.count newline + 1) :=
    build_reaches (by rwa [List.append_nil]) hle (fun x hx => by cases hx)
  rw [List.append_nil] at hreach
  exact index_eq hreach

/-- After bytes that are none or end with a newline, a line begins. -/
theorem start_build (hsize : (front ++ back).length < Span.limit)
    (hfront : front = [] ∨ ∃ bytes, front = bytes ++ [newline]) :
    (build (front ++ back)).start (front.count newline) = front.length := by
  have hstarts := starts_build (front ++ back)
  rw [startsFrom_append] at hstarts
  rw [start, Array.getD_eq_getD_getElem?, ← Array.getElem?_toList, hstarts]
  rcases hfront with rfl | ⟨bytes, rfl⟩
  · rfl
  · rw [List.length_append, List.length_append, List.length_singleton] at hsize
    have hheld : startsFrom bytes.length [newline] = [bytes.length + 1] := by
      rw [startsFrom, if_pos rfl, startsFrom, held, Nat.min_eq_left (by omega)]
    rw [startsFrom_append, Nat.zero_add, hheld, List.count_append, List.count_singleton_self,
      List.getElem?_cons_succ, List.append_assoc, ← length_startsFrom 0 bytes,
      List.getElem?_append_right (Nat.le_refl _)]
    simp

end Build

end Recast.LineTable
