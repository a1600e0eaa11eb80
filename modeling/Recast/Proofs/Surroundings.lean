import Recast.Proofs.Chained
import Recast.Proofs.Parallel

/-!
# What a block sees

A block is lowered at a level of its own, so of the scope around it matters only which names can be
seen there (`Block.lower_of_seen`): under the chained policy the names of all levels together, under
the isolated policy none.
-/

namespace Recast

variable {src : Source}

/-! ## The same names seen -/

/-- A text compared with itself: what corresponds is equal. -/
theorem Comparison.Faults.eq {d e : Fault} (h : (Comparison.self src).Faults d e) : d = e := by
  cases h with
  | reject hs hq =>
    cases hs
    rfl
  | named hs =>
    cases hs
    rfl
  | unsliced hs hl =>
    cases hs
    rfl

theorem Comparison.Results.eq {α : Type} {r s : Except Fault α}
    (h : (Comparison.self src).Results Eq r s) : r = s := by
  cases h with
  | ok e => rw [e]
  | error he => rw [he.eq]

/-- A block at two scopes inside which the same names are seen. -/
theorem Block.lower_eq_of_alike (b : Block) {s t : Scope} (h : s.child.Alike t.child)
    (lost : List Degradation) :
    ∃ r ds, (b.lower src).runFrom ⟨s, lost⟩ = (r, ⟨s, ds⟩) ∧
      (b.lower src).runFrom ⟨t, lost⟩ = (r, ⟨t, ds⟩) := by
  have htwin := b.twin_self src
  obtain ⟨ss, span⟩ := b
  cases htwin with
  | mk _ hss =>
    have hinner : (Comparison.self src).Reached (Progress.inner ⟨s, lost⟩)
        (Progress.inner ⟨t, lost⟩) := ⟨h, List.forall₂_same.2 fun _ _ => rfl⟩
    obtain ⟨hresult, -, hlost⟩ := Stmt.lowerList_parallel ss hss hinner
    rw [Block.lower, Lowering.inChild_runFrom, Lowering.inChild_runFrom]
    refine ⟨_, _, rfl, ?_⟩
    exact Prod.ext hresult.eq.symm (congrArg (Progress.mk t) (List.forall₂_eq_eq_eq ▸ hlost).symm)

/-! ## More names seen -/

/-- A chained scope that sees all that another one does. A level inside it corresponds to a level
inside the other, be it that names are declared at different levels. -/
theorem Beside.of_seen {s t : Scope} (lost : List Degradation) (ht : t.policy = .chained)
    (h : ∀ n, s.isDeclared n = true → t.isDeclared n = true) :
    Beside (Progress.inner ⟨s, lost⟩) (Progress.inner ⟨t, lost⟩) := by
  refine ⟨fun _ => ?_, rfl, ?_, ?_⟩
  · rw [Progress.inner_scope, Scope.child_policy, ht]
  · intro n hn
    simp [Scope.isDeclaredHere] at hn
  · intro n hn
    rw [Progress.inner_scope, Scope.isDeclared_child] at hn ⊢
    exact ⟨ht, h n hn.2⟩

theorem Block.lower_reuse (b : Block) {s t : Scope} {lost : List Degradation}
    (ht : t.policy = .chained) (h : ∀ n, s.isDeclared n = true → t.isDeclared n = true)
    {ts : List Target.Stmt} {q : Progress}
    (hts : (b.lower src).runFrom ⟨s, lost⟩ = (.ok ts, q)) :
    ∃ us, (b.lower src).runFrom ⟨t, lost⟩ = (.ok us, ⟨t, q.lost⟩) ∧
      ReuseBody (Event.pairs (b.trace src ⟨t, lost⟩)) ts us := by
  obtain ⟨ss, span⟩ := b
  have hagree := @Stmt.lowerList_agree src ss _ _ (Beside.of_seen lost ht h)
  rw [Block.lower, Lowering.inChild_runFrom] at hts
  rw [Block.lower, Lowering.inChild_runFrom, Block.trace, Event.pairs_append, Event.pairs_leave,
    List.append_nil]
  rcases hr : (Stmt.lowerList src ss).runFrom (Progress.inner ⟨s, lost⟩) with ⟨r, r'⟩
  rcases hu : (Stmt.lowerList src ss).runFrom (Progress.inner ⟨t, lost⟩) with ⟨u, u'⟩
  rw [hr] at hts hagree
  rw [hu] at hagree
  cases hts
  cases hagree with
  | ok hreuse hbeside => exact ⟨_, by rw [hbeside.lost], hreuse⟩

/-- **A block sees names, not levels.** Under the chained policy a block that is lowered at two
scopes from which the same names can be seen has the same outcome and the same losses, on however
many levels the names are declared. If more names can be seen from the second scope, a block that is
lowered at the first is lowered at the second, with the same losses; piece for piece its text is the
same, except that a pair of `:=` loses its `auto` if its name was declared, at that point of the
second run, around the level. Under the isolated policy the scope around a block does not matter. -/
theorem block_sees_names (src : Source) (b : Block) (lost : List Degradation) :
    (∀ s t : Scope, s.policy = .chained → t.policy = .chained →
      (∀ n, s.isDeclared n = t.isDeclared n) →
      ∃ r ds, (b.lower src).runFrom ⟨s, lost⟩ = (r, ⟨s, ds⟩) ∧
        (b.lower src).runFrom ⟨t, lost⟩ = (r, ⟨t, ds⟩)) ∧
    (∀ s t : Scope, s.policy = .chained → t.policy = .chained →
      (∀ n, s.isDeclared n = true → t.isDeclared n = true) →
      ∀ ts q, (b.lower src).runFrom ⟨s, lost⟩ = (.ok ts, q) →
      ∃ us, (b.lower src).runFrom ⟨t, lost⟩ = (.ok us, ⟨t, q.lost⟩) ∧
        Target.Stmt.listText ts = Target.Piece.join (Target.Stmt.listPieces ts) ∧
        Target.Stmt.listText us = Target.Piece.join (Target.Stmt.listPieces us) ∧
        ReusePieces (Event.pairs (b.trace src ⟨t, lost⟩)) (Target.Stmt.listPieces ts)
          (Target.Stmt.listPieces us)) ∧
    ∀ s t : Scope, s.policy = .isolated → t.policy = .isolated →
      ∃ r ds, (b.lower src).runFrom ⟨s, lost⟩ = (r, ⟨s, ds⟩) ∧
        (b.lower src).runFrom ⟨t, lost⟩ = (r, ⟨t, ds⟩) := by
  refine ⟨?_, ?_, ?_⟩
  · intro s t hs ht hseen
    exact b.lower_eq_of_alike (.child_of_seen (hs.trans ht.symm) fun _ => hseen) lost
  · intro s t _ ht hseen ts q hts
    obtain ⟨us, hus, hreuse⟩ := b.lower_reuse ht hseen hts
    exact ⟨us, hus, Target.Stmt.listText_eq_join ts, Target.Stmt.listText_eq_join us, hreuse⟩
  · intro s t hs ht
    refine b.lower_eq_of_alike (.child_of_seen (hs.trans ht.symm) fun h => ?_) lost
    rw [hs] at h
    cases h

/-- A block of `x, z := 2, 3`. -/
def Block.defining : Block :=
  .mk [.assign [.name ⟨"x", .none⟩, .name ⟨"z", .none⟩] .define
    [.literal "2" .none, .literal "3" .none] .none] .none

/-- `x` is declared on the level around the block, or further out, or not at all. -/
theorem block_sees_names_defining :
    (∃ r ds,
      (Block.defining.lower ⟨""⟩).runFrom ⟨⟨.chained, ["x"], []⟩, []⟩
        = (r, ⟨⟨.chained, ["x"], []⟩, ds⟩) ∧
      (Block.defining.lower ⟨""⟩).runFrom ⟨⟨.chained, [], [[], ["x"]]⟩, []⟩
        = (r, ⟨⟨.chained, [], [[], ["x"]]⟩, ds⟩)) ∧
    (∃ ts us,
      (Block.defining.lower ⟨""⟩).runFrom ⟨.root .chained, []⟩ = (.ok ts, ⟨.root .chained, []⟩) ∧
      (Block.defining.lower ⟨""⟩).runFrom ⟨⟨.chained, ["x"], []⟩, []⟩
        = (.ok us, ⟨⟨.chained, ["x"], []⟩, []⟩) ∧
      Target.Stmt.listText ts = "auto x = 2;\nauto z = 3;\n" ∧
      Target.Stmt.listText us = "x = 2;\nauto z = 3;\n" ∧
      ReusePieces (Event.pairs (Block.defining.trace ⟨""⟩ ⟨⟨.chained, ["x"], []⟩, []⟩))
        (Target.Stmt.listPieces ts) (Target.Stmt.listPieces us)) ∧
    ∃ r ds,
      (Block.defining.lower ⟨""⟩).runFrom ⟨⟨.isolated, ["x"], []⟩, []⟩
        = (r, ⟨⟨.isolated, ["x"], []⟩, ds⟩) ∧
      (Block.defining.lower ⟨""⟩).runFrom ⟨.root .isolated, []⟩
        = (r, ⟨.root .isolated, ds⟩) := by
  have h := block_sees_names ⟨""⟩ Block.defining []
  refine ⟨h.1 _ _ rfl rfl fun n => ?_, ?_, h.2.2 _ _ rfl rfl⟩
  · simp [Scope.isDeclared, Scope.isDeclaredHere]
  · have hseen : ∀ n, (Scope.root .chained).isDeclared n = true →
        Scope.isDeclared ⟨.chained, ["x"], []⟩ n = true := fun n hn => by cases hn
    obtain ⟨us, hus, -, -, hreuse⟩ := h.2.1 _ _ rfl rfl hseen _ _ rfl
    refine ⟨_, us, rfl, hus, by decide, ?_, hreuse⟩
    cases hus
    decide

end Recast
