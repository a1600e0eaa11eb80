import Recast.Proofs.Printed

/-!
# Scanning a part of a text

Pieces that stand side by side in a text are what their own text is cut into (`Piece.scan_inside`).
What stands before them does not matter, as a scan never looks back. It does look ahead, so what
stands behind them might: but what a piece takes from a text it also takes from a part of it
in which the piece lies (`Piece.measure?_of_append`).
-/

namespace Recast

/-! ## Marks -/

namespace Mark

-- Beyond two characters nothing is asked of a text, as its cases unfolded show.
set_option linter.auxLemma false in
theorem read?_cons_cons (c d e : Char) (cs rest : List Char) :
    read? c (d :: e :: cs) = read? c (d :: e :: rest) := by
  delta read? read?.match_1
  rfl

theorem read?_of_append {c : Char} {cs rest : List Char} {m : Mark} {n : Nat}
    (h : read? c (cs ++ rest) = some (m, n)) (hn : n ≤ cs.length) : read? c cs = some (m, n) := by
  match cs with
  | d :: e :: cs =>
    rw [← h]
    exact read?_cons_cons c d e cs (cs ++ rest)
  | [d] =>
    unfold read? at h ⊢
    dsimp only at h ⊢
    split at h <;> cases h <;> first | rfl | simp_all
  | [] =>
    obtain rfl : n = 0 := Nat.le_zero.1 hn
    unfold read? at h
    dsimp only at h
    split at h <;> cases h <;> rfl

theorem read?_le {c : Char} {cs : List Char} {m : Mark} {n : Nat} (h : read? c cs = some (m, n)) :
    n ≤ cs.length := by
  unfold read? at h
  dsimp only at h
  split at h <;> cases h <;> simp

end Mark

/-! ## Pieces -/

namespace Piece

/-- Characters of one class that lie inside a text are taken from it alone. -/
theorem length_takeWhile_of_append {p : Char → Bool} {cs rest : List Char}
    (h : ((cs ++ rest).takeWhile p).length ≤ cs.length) :
    (cs.takeWhile p).length = ((cs ++ rest).takeWhile p).length := by
  rw [List.takeWhile_append] at h ⊢
  split
  · rename_i hall
    rw [if_pos hall, List.length_append] at h
    rw [List.length_append, hall]
    omega
  · rfl

theorem two_le_of_commentTail {cs : List Char} {n : Nat} (h : commentTail cs = some n) :
    2 ≤ n := by
  fun_induction commentTail cs generalizing n with
  | case1 | case2 => cases h
  | case3 => exact Nat.le_of_eq (Option.some.inj h)
  | case4 c cs hz hne ih =>
    obtain ⟨m, hm, rfl⟩ := Option.map_eq_some_iff.1 h
    exact Nat.le_succ_of_le (ih hm)

/-- The end of a comment does not depend on what comes after it. -/
theorem commentTail_append_iff {cs rest : List Char} {n : Nat} :
    commentTail cs = some n ↔ commentTail (cs ++ rest) = some n ∧ n ≤ cs.length := by
  fun_induction commentTail cs generalizing n with
  | case1 =>
    constructor
    · intro h
      cases h
    · rintro ⟨h, hn⟩
      have := two_le_of_commentTail h
      rw [List.length_nil] at hn
      omega
  | case2 cs =>
    rw [List.cons_append, commentTail]
    simp
  | case3 cs =>
    simp only [List.cons_append, commentTail, List.length_cons]
    constructor
    · intro h
      cases h
      exact ⟨rfl, by omega⟩
    · exact And.left
  | case4 c cs hz hne ih =>
    cases cs with
    | nil =>
      constructor
      · intro h
        cases h
      · rintro ⟨h, hn⟩
        have := two_le_of_commentTail h
        simp only [List.length_cons, List.length_nil] at hn
        omega
    | cons d cs =>
      have hstep : commentTail (c :: d :: cs ++ rest)
          = (commentTail (d :: cs ++ rest)).map (· + 1) := by
        rw [List.cons_append, List.cons_append, commentTail]
        · exact hz
        · rintro ds rfl he
          obtain ⟨rfl, -⟩ := List.cons.inj he
          exact hne cs rfl rfl
      rw [hstep, Option.map_eq_some_iff, Option.map_eq_some_iff]
      constructor
      · rintro ⟨m, hm, rfl⟩
        obtain ⟨hr, hle⟩ := ih.1 hm
        exact ⟨⟨m, hr, rfl⟩, Nat.succ_le_succ hle⟩
      · rintro ⟨⟨m, hm, rfl⟩, hle⟩
        exact ⟨m, ih.2 ⟨hm, Nat.le_of_succ_le_succ hle⟩, rfl⟩

/-- A comment goes up to what ends its line, or up to `*/`. -/
theorem commentLength?_eq_some_iff {cs : List Char} {n : Nat} :
    commentLength? cs = some n ↔
      (∃ ds, cs = '/' :: ds ∧ n = 1 + (ds.takeWhile (!endsLine ·)).length) ∨
        ∃ ds m, cs = '*' :: ds ∧ commentTail ds = some m ∧ n = m + 1 := by
  constructor
  · intro h
    unfold commentLength? at h
    split at h
    · exact .inl ⟨_, rfl, (Option.some.inj h).symm⟩
    · obtain ⟨m, hm, rfl⟩ := Option.map_eq_some_iff.1 h
      exact .inr ⟨_, m, rfl, hm, rfl⟩
    · cases h
  · rintro (⟨ds, rfl, rfl⟩ | ⟨ds, m, rfl, hm, rfl⟩)
    · rfl
    · exact Option.map_eq_some_iff.2 ⟨m, hm, rfl⟩

theorem commentLength?_of_append {cs rest : List Char} {n : Nat}
    (h : commentLength? (cs ++ rest) = some n) (hn : n ≤ cs.length) :
    commentLength? cs = some n := by
  cases cs with
  | nil =>
    obtain rfl : n = 0 := Nat.le_zero.1 hn
    rcases commentLength?_eq_some_iff.1 h with ⟨ds, -, hzero⟩ | ⟨ds, m, -, -, hzero⟩ <;> omega
  | cons c cs =>
    rw [List.cons_append] at h
    rw [List.length_cons] at hn
    rcases commentLength?_eq_some_iff.1 h with ⟨ds, he, hlen⟩ | ⟨ds, m, he, hm, rfl⟩
    · obtain ⟨rfl, rfl⟩ := List.cons.inj he
      rw [← length_takeWhile_of_append (by omega)] at hlen
      exact commentLength?_eq_some_iff.2 (.inl ⟨cs, rfl, hlen⟩)
    · obtain ⟨rfl, rfl⟩ := List.cons.inj he
      have htail := commentTail_append_iff.2 ⟨hm, Nat.le_of_succ_le_succ hn⟩
      exact commentLength?_eq_some_iff.2 (.inr ⟨cs, m, rfl, htail, rfl⟩)

theorem commentLength?_eq_none_of_append {cs rest : List Char}
    (h : commentLength? (cs ++ rest) = none) : commentLength? cs = none := by
  by_contra hne
  obtain ⟨n, hn⟩ := Option.ne_none_iff_exists'.1 hne
  rcases commentLength?_eq_some_iff.1 hn with ⟨ds, rfl, -⟩ | ⟨ds, m, rfl, hm, -⟩
  · cases h
  · have htail : commentTail (ds ++ rest) = some m := (commentTail_append_iff.1 hm).1
    rw [List.cons_append, commentLength?, htail] at h
    cases h

theorem commentLength?_le {cs : List Char} {n : Nat} (h : commentLength? cs = some n) :
    n ≤ cs.length := by
  rcases commentLength?_eq_some_iff.1 h with ⟨ds, rfl, rfl⟩ | ⟨ds, m, rfl, hm, rfl⟩
  · have hle := (List.takeWhile_prefix (!endsLine ·) (l := ds)).length_le
    rw [List.length_cons]
    omega
  · exact Nat.succ_le_succ ((@commentTail_append_iff ds [] m).1 hm).2

/-- What takes the same from a text whatever comes after, takes the same where the text is cut. -/
theorem eq_some_of_append {f : List Char → Option Nat}
    (hf : ∀ {cs : List Char} {n : Nat}, f cs = some n → n ≤ cs.length ∧
      ∀ rest, f (cs.take n ++ rest) = some n)
    {cs rest : List Char} {n : Nat} (h : f (cs ++ rest) = some n) (hn : n ≤ cs.length) :
    f cs = some n := by
  have htake := (hf h).2 (cs.drop n)
  rwa [List.take_append_of_le_length hn, List.take_append_drop] at htake

/-- A piece is read from a part of a text in which it lies. -/
theorem measure?_of_append {c : Char} {cs rest : List Char} {kind : PieceKind} {n : Nat}
    (h : measure? c (cs ++ rest) = some (kind, n)) (hn : n ≤ cs.length) :
    measure? c cs = some (kind, n) := by
  have hlength : Number.length (c :: (cs ++ rest)) ≤ (c :: cs).length →
      Number.length (c :: (cs ++ rest)) = Number.length (c :: cs) :=
    fun hle => (@Number.length_of_append (c :: cs) rest hle).symm
  rw [measure?_eq_some_iff]
  cases begins_of_measure? h with
  | blank hb => exact .blank hb
  | word hb hi =>
    rw [← length_takeWhile_of_append hn]
    exact .word hb hi
  | number hb hi hpos =>
    have hsame := hlength (by rw [List.length_cons]; omega)
    rw [hsame] at hpos ⊢
    exact .number hb hi hpos
  | quoted hq h => exact .quoted hq (eq_some_of_append hq.take h hn)
  | comment hc h => exact .comment hc (commentLength?_of_append h hn)
  | mark hb hi hzero hq hc h =>
    have hsame := hlength (by omega)
    rw [hsame] at hzero
    exact .mark hb hi hzero hq (fun he => commentLength?_eq_none_of_append (hc he))
      (Mark.read?_of_append h hn)

/-- A piece takes no more than there is. -/
theorem measure?_le {c : Char} {cs : List Char} {kind : PieceKind} {n : Nat}
    (h : measure? c cs = some (kind, n)) : n ≤ cs.length := by
  cases begins_of_measure? h with
  | blank => exact Nat.zero_le _
  | word => exact (List.takeWhile_prefix _).length_le
  | number =>
    have hnumber := Number.length_le (c :: cs)
    rw [List.length_cons] at hnumber
    omega
  | quoted hq h => exact (hq.take h).1
  | comment hc h => exact commentLength?_le h
  | mark _ _ _ _ _ h => exact Mark.read?_le h

/-! ## Scans -/

/-- The first piece of a scan, and the scan of what comes after it. -/
theorem of_scan_cons {cs : List Char} {p : Piece} {ps : List Piece} (h : scan cs = .ok (p :: ps)) :
    ∃ c ds, p.text = c :: ds ∧
      measure? c (ds ++ ps.flatMap Piece.text) = some (p.kind, ds.length) ∧
      scan (ps.flatMap Piece.text) = .ok ps := by
  cases cs with
  | nil =>
    rw [scan] at h
    cases h
  | cons c cs =>
    rw [scan] at h
    split at h
    · cases h
    · rename_i kind more hm
      split at h
      · rename_i pieces hs
        cases h
        have hle := measure?_le hm
        rw [join_scan hs]
        refine ⟨c, cs.take more, rfl, ?_, hs⟩
        rw [List.take_append_drop, List.length_take, Nat.min_eq_left hle]
        exact hm
      · cases h

theorem scan_right {xs ys : List Piece} {cs : List Char} (h : scan cs = .ok (xs ++ ys)) :
    scan (ys.flatMap Piece.text) = .ok ys := by
  induction xs generalizing cs with
  | nil =>
    rw [List.nil_append] at h
    rwa [join_scan h]
  | cons p xs ih =>
    obtain ⟨c, ds, -, -, hrest⟩ := of_scan_cons h
    exact ih hrest

theorem scan_left {xs ys : List Piece} {cs : List Char} (h : scan cs = .ok (xs ++ ys)) :
    scan (xs.flatMap Piece.text) = .ok xs := by
  induction xs generalizing cs with
  | nil => rw [List.flatMap_nil, scan]
  | cons p xs ih =>
    rw [List.cons_append] at h
    obtain ⟨c, ds, htext, hm, hrest⟩ := of_scan_cons h
    rw [List.flatMap_append, ← List.append_assoc] at hm
    have hin := measure?_of_append hm (by simp)
    rw [List.flatMap_cons, htext, List.cons_append, scan_of_measure? ds hin (ih hrest), ← htext]

/-- The pieces inside a text. -/
theorem scan_inside {before ps after : List Piece} {cs : List Char}
    (h : scan cs = .ok (before ++ ps ++ after)) : scan (ps.flatMap Piece.text) = .ok ps :=
  scan_right (scan_left h)

/-- The same where the source may begin with a byte order mark, which is read as a blank there. -/
theorem scan_of_ofChars {before ps after : List Piece} {cs : List Char}
    (h : ofChars cs = .ok (before ++ ps ++ after)) (hp : ∀ p ∈ ps.head?, p.kind ≠ .blank) :
    scan (ps.flatMap Piece.text) = .ok ps := by
  rcases ofChars_eq_ok h with ⟨hs, -⟩ | ⟨ds, qs, rfl, hs, he⟩
  · exact scan_inside hs
  · cases before with
    | nil =>
      cases ps with
      | nil => rw [List.flatMap_nil, scan]
      | cons p ps =>
        obtain ⟨rfl, -⟩ := List.cons.inj he
        exact absurd rfl (hp _ rfl)
    | cons b before =>
      obtain ⟨-, rfl⟩ := List.cons.inj he
      exact scan_inside hs

end Piece

end Recast
