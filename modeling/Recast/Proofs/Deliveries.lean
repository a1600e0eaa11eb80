import Recast.Proofs.Effects

/-!
# What becomes of emitted texts

An emitter swallows the failure of a write until it is finished. Nothing is lost by that
(`Disk.emitted_or_reported`): the file of an emitter that finishes well holds all that was emitted,
and if a write is refused, be it while texts are emitted or when the buffer is written out at the
end, the emitter finishes with the error of that write. No text that is emitted after the failure
reaches the buffer or the file. Which write a text gets into depends on how much of the buffer the
texts before it have filled; nothing that is said here does.
-/

namespace Recast

namespace Emitter

variable {m : Type → Type} [Monad m]

/-- After a failure nothing is emitted. -/
theorem emit_of_failure (ops : FileOps m) (h : ops.Handle) {e : Emitter} {f : OsError}
    (hf : e.failure = some f) (text : String) : emit ops h e text = pure e := by
  rw [emit, hf]
  rfl

variable [LawfulMonad m]

theorem emitAll_of_failure (ops : FileOps m) (h : ops.Handle) {e : Emitter} {f : OsError}
    (hf : e.failure = some f) (texts : List String) : emitAll ops h e texts = pure e := by
  induction texts with
  | nil => rfl
  | cons text texts ih => rw [emitAll, emit_of_failure ops h hf, pure_bind, ih]

theorem emitAll_append (ops : FileOps m) (h : ops.Handle) (e : Emitter)
    (before after : List String) :
    emitAll ops h e (before ++ after) =
      emitAll ops h e before >>= fun e => emitAll ops h e after := by
  induction before generalizing e with
  | nil => rw [List.nil_append, emitAll, pure_bind]
  | cons text before ih =>
    rw [List.cons_append, emitAll, emitAll, bind_assoc]
    exact bind_congr fun e => ih e

end Emitter

namespace Disk

variable {k : Disk} {name : String} {texts : List String} {s s' : State}

/-- How the texts come out that were emitted to an empty file since a state: the emitter and the
state after them, and the result of finishing with the state after that. -/
inductive Delivery (k : Disk) (name : String) (texts : List String) (s : State) :
    Emitter → State → Except OsError Unit → State → Prop
  /-- All writes were accepted, and the file holds the texts. -/
  | whole {e : Emitter} {s₁ s₂ : State} :
      e.failure = none → k.Accepts s s₂ → s₂.files name = some (String.join texts).toUTF8 →
      Delivery k name texts s e s₁ (.ok ()) s₂
  /-- A write was refused while the texts were emitted, and nothing was written until the emitter
  was finished. -/
  | stopped {e : Emitter} {s₁ s₂ : State} {f : OsError} :
      e.failure = some f → k.Refuses s s₁ f → k.FirstRefusal s s₂ f →
      Delivery k name texts s e s₁ (.error f) s₂
  /-- The buffer could not be written out in the end. -/
  | unflushed {e : Emitter} {s₁ s₂ : State} {f : OsError} :
      e.failure = none → k.Accepts s s₁ → k.FirstRefusal s s₂ f →
      Delivery k name texts s e s₁ (.error f) s₂

/-- When an emitter is finished, its file holds a beginning of the texts that were emitted to it, or
all of them. -/
theorem Emitted.delivery {e : Emitter} (hempty : s.files name = some .empty)
    (h : Emitted k name s (String.join texts).toUTF8 e s') :
    ∃ r s₂ content, (Emitter.finish k.ops name e).run s' = (r, s₂) ∧
      s₂.files name = some content ∧ Begins content (String.join texts).toUTF8 ∧
      Delivery k name texts s e s' r s₂ := by
  cases h with
  | lost ht hr hb =>
    obtain ⟨s₂, hclose, htouches, hfirst, hbegins⟩ := (Emitted.lost ht hr hb).close
    obtain ⟨content, hcontent⟩ := Option.isSome_iff_exists.1 (htouches.stays (by rw [hempty]; rfl))
    refine ⟨_, s₂, content, ?_, hcontent, ?_, .stopped rfl hr hfirst⟩
    · rw [Emitter.finish_of_failure k.ops name rfl, hclose]
    · simpa [State.content, hempty, hcontent] using hbegins
  | kept ht ha hb =>
    obtain ⟨r, s₂, content, hfinish, -, hcontent, hcase⟩ :=
      (Emitted.kept ht ha hb).finish_new hempty
    refine ⟨r, s₂, content, hfinish, hcontent, ?_⟩
    rcases hcase with ⟨rfl, haccepts, rfl⟩ | ⟨f, rfl, hr, hbegins⟩
    · exact ⟨begins_refl _, .whole rfl haccepts hcontent⟩
    · exact ⟨hbegins, .unflushed rfl ha hr⟩

/-- **No output is lost silently.** Texts are emitted to a file that was just created, and the
emitter is finished. If it finishes well the file holds the texts, one after the other, and no write
was refused; otherwise the error is that of the first write that was refused, while the texts were
emitted or at the end, and the file holds a beginning of the texts. Once the emitter has failed, the
texts that are still emitted leave it and the files as they are, its failure is the one that is
reported, and nothing of these texts comes into the file when the buffer is let go of. -/
theorem emitted_or_reported (k : Disk) {path : String} (hcreate : k.uncreatable path = none)
    (texts : List String) (s : State) :
    ∃ s₀ e s₁ r s₂ content, (k.ops.create path).run s = (.ok (k.target path), s₀) ∧
      (Emitter.emitAll k.ops (k.target path) .empty texts).run s₀ = (e, s₁) ∧
      (Emitter.finish k.ops (k.target path) e).run s₁ = (r, s₂) ∧
      Delivery k (k.target path) texts s₀ e s₁ r s₂ ∧
      s₂.files (k.target path) = some content ∧ Begins content (String.join texts).toUTF8 ∧
      ∀ before after e' s' f, texts = before ++ after →
        (Emitter.emitAll k.ops (k.target path) .empty before).run s₀ = (e', s') →
        e'.failure = some f →
        e = e' ∧ s₁ = s' ∧ r = .error f ∧ Begins content (String.join before).toUTF8 := by
  have hempty : (s.put (k.target path) .empty).files (k.target path) = some .empty := s.put_files ..
  have hemitAll := (Emitted.empty k (k.target path) (s.put (k.target path) .empty)).emitAll
  simp only [ByteArray.empty_append] at hemitAll
  obtain ⟨e, s₁, hemit, hemitted⟩ := hemitAll texts
  obtain ⟨r, s₂, content, hfinish, hcontent, hbegins, hdelivery⟩ := hemitted.delivery hempty
  refine ⟨_, e, s₁, r, s₂, content, ?_, hemit, hfinish, hdelivery, hcontent, hbegins, ?_⟩
  · rw [create_run, create, hcreate]
  · rintro before after e' s' f rfl hbefore hf
    -- the texts after the failure change nothing, so the emitter is one that was given those before
    rw [Emitter.emitAll_append, run_bind_of hbefore, Emitter.emitAll_of_failure _ _ hf] at hemit
    cases hemit
    obtain ⟨_, _, hbefore', hemitted'⟩ := hemitAll before
    cases hbefore.symm.trans hbefore'
    obtain ⟨_, _, _, hfinish', hcontent', hbegins', hdelivery'⟩ := hemitted'.delivery hempty
    cases hfinish.symm.trans hfinish'
    cases hcontent.symm.trans hcontent'
    refine ⟨rfl, rfl, ?_, hbegins'⟩
    cases hdelivery' with
    | whole hnone | unflushed hnone => cases hnone.symm.trans hf
    | stopped hsome => rw [Option.some.inj (hsome.symm.trans hf)]

/-- A disk that takes three bytes of each write and refuses the others. -/
def full : Disk := ⟨id, fun _ => none, fun _ => none, fun _ => some ⟨.noSpace, 3⟩⟩

/-- Texts of which the ninth does not fit into the buffer. -/
def overflowing : List String := List.replicate 10 (String.ofList (List.replicate 1000 'a'))

theorem emitted_or_reported_overflowing :
    full.uncreatable "a.cpp" = none ∧
    ∃ s₀ e s₁ r s₂ content,
      (full.ops.create "a.cpp").run ⟨fun _ => none, 0⟩ = (.ok "a.cpp", s₀) ∧
      (Emitter.emitAll full.ops "a.cpp" .empty overflowing).run s₀ = (e, s₁) ∧
      (Emitter.finish full.ops "a.cpp" e).run s₁ = (r, s₂) ∧
      e.failure = some .noSpace ∧ r = .error .noSpace ∧
      Delivery full "a.cpp" overflowing s₀ e s₁ r s₂ ∧
      s₂.files "a.cpp" = some content ∧ Begins content (String.join overflowing).toUTF8 ∧
      ∀ before after e' s' f, overflowing = before ++ after →
        (Emitter.emitAll full.ops "a.cpp" .empty before).run s₀ = (e', s') →
        e'.failure = some f →
        e = e' ∧ s₁ = s' ∧ r = .error f ∧ Begins content (String.join before).toUTF8 := by
  obtain ⟨s₀, e, s₁, r, s₂, content, hcreate, hemit, hfinish, hdelivery, hcontent, hbegins,
    hafter⟩ :=
    emitted_or_reported full (rfl : full.uncreatable "a.cpp" = none) overflowing ⟨fun _ => none, 0⟩
  have he : ((Emitter.emitAll full.ops (full.target "a.cpp") .empty overflowing).run
      (State.put ⟨fun _ => none, 0⟩ (full.target "a.cpp") .empty)).1.failure = some .noSpace := by
    decide +kernel
  cases hcreate
  rw [hemit] at he
  have hr := (hafter overflowing [] e s₁ .noSpace rfl hemit he).2.2.1
  exact ⟨rfl, _, e, s₁, r, s₂, content, rfl, hemit, hfinish, he, hr, hdelivery, hcontent, hbegins,
    hafter⟩

/-- A buffer of ten bytes is written out at the end: three are taken, and three of the others. -/
example : ((Emitter.emitAll full.ops "a.cpp" .empty ["0123456789"] >>=
    Emitter.finish full.ops "a.cpp").run ⟨fun _ => some .empty, 0⟩).2.files "a.cpp"
      = some "012345".toUTF8 := by
  decide +kernel

end Disk

end Recast
