import Recast.Files.Convert
import Recast.Files.Disk
import Recast.Proofs.Orders

/-!
# What a conversion does to the files

An emitter keeps what it is given, in the file and in its buffer, or it keeps the first failure of a
write, and then these hold a beginning of what it was given (`Disk.Emitted`). From that follows what
the conversion of a file leaves on a disk, by the stage at which it ends (`convertFile_effect`).
-/

namespace Recast

/-- The first step of two, and then the second. -/
theorem run_bind_of {σ α β : Type} {x : StateM σ α} {f : α → StateM σ β} {s s' : σ} {a : α}
    (h : x.run s = (a, s')) : (x >>= f).run s = (f a).run s' := by
  rw [StateT.run_bind, h]
  rfl

namespace Emitter

variable {m : Type → Type} [Monad m]

/-- Writes out the buffer if more bytes do not fit beside its own. -/
def makeRoom (ops : FileOps m) (h : ops.Handle) (e : Emitter) (more : ByteArray) : m Emitter :=
  if more.size > capacity - e.pending.size then flush ops h e else pure e

/-- Puts bytes into the buffer, or passes it by with them if they fill it alone. -/
def place (ops : FileOps m) (h : ops.Handle) (e : Emitter) (more : ByteArray) : m Emitter := do
  if e.failure.isSome then return e
  else if more.size ≥ capacity then
    match ← ops.write h more with
    | .ok () => return e
    | .error w => return { e with failure := some w.error }
  else return { e with pending := e.pending ++ more }

theorem overflow_eq (ops : FileOps m) (h : ops.Handle) (e : Emitter) (more : ByteArray) :
    overflow ops h e more = makeRoom ops h e more >>= fun e => place ops h e more := by
  unfold overflow makeRoom
  by_cases hfits : more.size > capacity - e.pending.size
  · simp only [if_pos hfits]
    rfl
  · simp only [if_neg hfits]
    rfl

theorem finish_of_failure (ops : FileOps m) (h : ops.Handle) {e : Emitter} {f : OsError}
    (hf : e.failure = some f) : finish ops h e = close ops h e := by
  rw [finish, hf]
  rfl

theorem finish_of_none (ops : FileOps m) (h : ops.Handle) {e : Emitter} (hf : e.failure = none) :
    finish ops h e = flush ops h e >>= close ops h := by
  rw [finish, hf]
  rfl

end Emitter

namespace Disk

variable {k : Disk} {name : String} {s s' s'' : State}

@[simp] theorem State.put_content (s : State) (name : String) (bytes : ByteArray) :
    (s.put name bytes).content name = bytes := by
  simp [content, put]

@[simp] theorem State.put_files (s : State) (name : String) (bytes : ByteArray) :
    (s.put name bytes).files name = some bytes :=
  if_pos rfl

theorem State.put_files_of_ne (s : State) {n : String} (h : n ≠ name) (bytes : ByteArray) :
    (s.put name bytes).files n = s.files n :=
  if_neg h

/-! ## Beginnings -/

/-- Bytes that others begin with. -/
def Begins (a b : ByteArray) : Prop := ∃ rest, a ++ rest = b

theorem begins_refl (a : ByteArray) : Begins a a := ⟨.empty, ByteArray.append_empty⟩

theorem begins_append (a b : ByteArray) : Begins a (a ++ b) := ⟨b, rfl⟩

theorem Begins.trans {a b c : ByteArray} (h : Begins a b) (h' : Begins b c) : Begins a c := by
  obtain ⟨x, rfl⟩ := h
  obtain ⟨y, rfl⟩ := h'
  exact ⟨x ++ y, ByteArray.append_assoc.symm⟩

theorem Begins.append_left {a b : ByteArray} (h : Begins a b) (c : ByteArray) :
    Begins (c ++ a) (c ++ b) := by
  obtain ⟨x, rfl⟩ := h
  exact ⟨x, ByteArray.append_assoc⟩

/-- Bytes are the first of them and the others. -/
theorem extract_append_rest (a : ByteArray) (n : Nat) :
    a.extract 0 n ++ a.extract n a.size = a := by
  rw [ByteArray.extract_append_extract, Nat.zero_min, ByteArray.extract_zero_max_size]

theorem extract_begins (a : ByteArray) (n : Nat) : Begins (a.extract 0 n) a :=
  ⟨_, extract_append_rest a n⟩

/-! ## Writes -/

/-- Some writes to one file. -/
structure Touches (name : String) (s s' : State) : Prop where
  frame : ∀ n ≠ name, s'.files n = s.files n
  stays : (s.files name).isSome = true → (s'.files name).isSome = true
  writes_le : s.writes ≤ s'.writes

/-- No write was refused. -/
def Accepts (k : Disk) (s s' : State) : Prop :=
  ∀ n, s.writes ≤ n → n < s'.writes → k.refused n = none

/-- The last write was refused, and none before it. -/
def Refuses (k : Disk) (s s' : State) (e : OsError) : Prop :=
  ∃ n taken, s.writes ≤ n ∧ s'.writes = n + 1 ∧ (∀ m, s.writes ≤ m → m < n → k.refused m = none) ∧
    k.refused n = some ⟨e, taken⟩

/-- A write was refused, and none before it. After it there was at most one write. -/
def FirstRefusal (k : Disk) (s s' : State) (e : OsError) : Prop :=
  ∃ n taken, s.writes ≤ n ∧ n < s'.writes ∧ s'.writes ≤ n + 2 ∧
    (∀ m, s.writes ≤ m → m < n → k.refused m = none) ∧ k.refused n = some ⟨e, taken⟩

/-- At most one write follows the one that was refused. -/
theorem Refuses.first {e : OsError} (h : k.Refuses s s' e) (hle : s'.writes ≤ s''.writes)
    (hlast : s''.writes ≤ s'.writes + 1) : k.FirstRefusal s s'' e := by
  obtain ⟨n, taken, hn, hwrites, hbefore, hrefused⟩ := h
  exact ⟨n, taken, hn, by omega, by omega, hbefore, hrefused⟩

theorem Touches.refl (name : String) (s : State) : Touches name s s :=
  ⟨fun _ _ => rfl, id, Nat.le_refl _⟩

theorem Touches.trans (h : Touches name s s') (h' : Touches name s' s'') : Touches name s s'' :=
  ⟨fun n hn => (h'.frame n hn).trans (h.frame n hn), fun hs => h'.stays (h.stays hs),
    Nat.le_trans h.writes_le h'.writes_le⟩

theorem touches_put (s : State) (name : String) (bytes : ByteArray) :
    Touches name s { s.put name bytes with writes := s.writes + 1 } :=
  ⟨fun _ hn => s.put_files_of_ne hn bytes, fun _ => congrArg Option.isSome (s.put_files name bytes),
    Nat.le_succ _⟩

theorem accepts_refl (k : Disk) (s : State) : k.Accepts s s := fun _ hle hlt => by omega

theorem Accepts.snoc (h : k.Accepts s s') (hs : s''.writes = s'.writes + 1)
    (hr : k.refused s'.writes = none) : k.Accepts s s'' := by
  intro n hle hlt
  rcases Nat.lt_succ_iff_lt_or_eq.1 (hs ▸ hlt) with hn | rfl
  · exact h n hle hn
  · exact hr

/-- A write counts, and it either appends all of its bytes or is refused and appends the first of
them. -/
theorem write_cases (k : Disk) (name : String) (bytes : ByteArray) (s : State) :
    ∃ r s', k.write name bytes s = (r, s') ∧ Touches name s s' ∧ s'.writes = s.writes + 1 ∧
      ((r = .ok () ∧ k.refused s.writes = none ∧ s'.content name = s.content name ++ bytes) ∨
        ∃ w, r = .error w ∧ k.refused s.writes = some w ∧
          s'.content name = s.content name ++ bytes.extract 0 w.taken) := by
  unfold write
  cases hr : k.refused s.writes with
  | none =>
    exact ⟨_, _, rfl, touches_put .., rfl, .inl ⟨rfl, rfl, s.put_content ..⟩⟩
  | some w =>
    exact ⟨_, _, rfl, touches_put .., rfl, .inr ⟨w, rfl, rfl, s.put_content ..⟩⟩

/-- In either case it appends a beginning of its bytes. -/
theorem write_begins (k : Disk) (name : String) (bytes : ByteArray) (s : State) :
    ∃ r s', k.write name bytes s = (r, s') ∧ Touches name s s' ∧ s'.writes = s.writes + 1 ∧
      Begins (s'.content name) (s.content name ++ bytes) := by
  obtain ⟨r, s', hw, ht, hwrites, ⟨-, -, hcontent⟩ | ⟨w, -, -, hcontent⟩⟩ :=
    write_cases k name bytes s
  · exact ⟨r, s', hw, ht, hwrites, hcontent ▸ begins_refl _⟩
  · exact ⟨r, s', hw, ht, hwrites, hcontent ▸ (extract_begins bytes w.taken).append_left _⟩

/-! ## Emitters -/

/-- What became of the bytes that an emitter was given since a state: the file and the buffer hold
them, or a write was refused and they hold a beginning of them. -/
inductive Emitted (k : Disk) (name : String) (s : State) (bytes : ByteArray) :
    Emitter → State → Prop
  | kept {pending : ByteArray} {s' : State} :
      Touches name s s' → k.Accepts s s' →
      s'.content name ++ pending = s.content name ++ bytes →
      Emitted k name s bytes ⟨pending, none⟩ s'
  | lost {pending : ByteArray} {e : OsError} {s' : State} :
      Touches name s s' → k.Refuses s s' e →
      Begins (s'.content name ++ pending) (s.content name ++ bytes) →
      Emitted k name s bytes ⟨pending, some e⟩ s'

namespace Emitted

variable {bytes : ByteArray} {e : Emitter}

theorem empty (k : Disk) (name : String) (s : State) : Emitted k name s .empty .empty s :=
  .kept (.refl name s) (accepts_refl k s) rfl

/-- The next bytes are written. If that is refused, some that were not taken may stay. -/
theorem write (next : ByteArray) (ht : Touches name s s') (ha : k.Accepts s s')
    (hb : s'.content name ++ next = s.content name ++ bytes) :
    ∃ r s'', k.write name next s' = (r, s'') ∧
      ((r = .ok () ∧ Emitted k name s bytes .empty s'') ∨
        ∃ w, r = .error w ∧ ∀ left, Begins (next.extract 0 w.taken ++ left) next →
          Emitted k name s bytes ⟨left, some w.error⟩ s'') := by
  obtain ⟨r, s'', hw, htouches, hwrites, ⟨rfl, hr, hcontent⟩ | ⟨w, rfl, hr, hcontent⟩⟩ :=
    write_cases k name next s'
  · refine ⟨_, _, hw, .inl ⟨rfl, .kept (ht.trans htouches) (ha.snoc hwrites hr) ?_⟩⟩
    rw [hcontent, hb, ByteArray.append_empty]
  · refine ⟨_, _, hw, .inr ⟨w, rfl, fun left hleft => .lost (ht.trans htouches)
      ⟨s'.writes, w.taken, ht.writes_le, hwrites, ha, hr⟩ ?_⟩⟩
    rw [hcontent, ByteArray.append_assoc, ← hb]
    exact hleft.append_left _

/-- The buffer is written out. -/
theorem flush {pending : ByteArray} (h : Emitted k name s bytes ⟨pending, none⟩ s') :
    ∃ e s'', (Emitter.flush k.ops name ⟨pending, none⟩).run s' = (e, s'') ∧
      Emitted k name s bytes e s'' ∧ (e.failure = none → e.pending = .empty) := by
  unfold Emitter.flush
  split
  · rename_i hp
    exact ⟨_, _, rfl, h, fun _ => by simpa [ByteArray.isEmpty] using hp⟩
  · cases h with
    | kept ht ha hb =>
      obtain ⟨r, s'', hw, hcase⟩ := write pending ht ha hb
      have hrun : (k.ops.write name pending).run s' = (r, s'') := hw
      rw [run_bind_of hrun]
      rcases hcase with ⟨rfl, hkept⟩ | ⟨w, rfl, hlost⟩
      · exact ⟨_, _, rfl, hkept, fun _ => rfl⟩
      · refine ⟨_, _, rfl, hlost _ ?_, nofun⟩
        rw [extract_append_rest]
        exact begins_refl pending

/-- More bytes are put into the buffer. -/
theorem push {pending : ByteArray} (h : Emitted k name s bytes ⟨pending, none⟩ s')
    (more : ByteArray) : Emitted k name s (bytes ++ more) ⟨pending ++ more, none⟩ s' := by
  cases h with
  | kept ht ha hb =>
    refine .kept ht ha ?_
    rw [← ByteArray.append_assoc, hb, ByteArray.append_assoc]

/-- There is room for more bytes, or these fill the buffer alone. -/
theorem makeRoom {pending : ByteArray} (h : Emitted k name s bytes ⟨pending, none⟩ s')
    (more : ByteArray) :
    ∃ e s'', (Emitter.makeRoom k.ops name ⟨pending, none⟩ more).run s' = (e, s'') ∧
      Emitted k name s bytes e s'' ∧
      (e.failure = none → Emitter.capacity ≤ more.size → e.pending = .empty) := by
  unfold Emitter.makeRoom
  split
  · obtain ⟨e, s'', hrun, hemitted, hempty⟩ := h.flush
    exact ⟨e, s'', hrun, hemitted, fun he _ => hempty he⟩
  · refine ⟨_, _, rfl, h, fun _ hmore => ?_⟩
    have hsize : pending.size = 0 := by
      dsimp only [Emitter.capacity] at *
      omega
    exact ByteArray.size_eq_zero_iff.1 hsize

theorem place {e : Emitter} (h : Emitted k name s bytes e s') (more : ByteArray)
    (hempty : e.failure = none → Emitter.capacity ≤ more.size → e.pending = .empty) :
    ∃ e' s'', (Emitter.place k.ops name e more).run s' = (e', s'') ∧
      Emitted k name s (bytes ++ more) e' s'' := by
  cases h with
  | lost ht hr hb =>
    exact ⟨_, _, rfl, .lost ht hr (hb.trans ((begins_append bytes more).append_left _))⟩
  | kept ht ha hb =>
    rename_i pending
    unfold Emitter.place
    simp only [Option.isSome_none, Bool.false_eq_true, if_false]
    split
    · rename_i hmore
      obtain rfl : pending = .empty := hempty rfl hmore
      have hmore : s'.content name ++ more = s.content name ++ (bytes ++ more) := by
        rw [← ByteArray.append_assoc, ← hb, ByteArray.append_empty]
      obtain ⟨r, s'', hw, hcase⟩ := write more ht ha hmore
      have hrun : (k.ops.write name more).run s' = (r, s'') := hw
      rw [run_bind_of hrun]
      rcases hcase with ⟨rfl, hkept⟩ | ⟨w, rfl, hlost⟩
      · exact ⟨_, _, rfl, hkept⟩
      · refine ⟨_, _, rfl, hlost .empty ?_⟩
        rw [ByteArray.append_empty]
        exact extract_begins more w.taken
    · exact ⟨_, _, rfl, (Emitted.kept ht ha hb).push more⟩

/-- What is emitted is kept, or a write was refused. -/
theorem emit {e : Emitter} (h : Emitted k name s bytes e s') (text : String) :
    ∃ e' s'', (Emitter.emit k.ops name e text).run s' = (e', s'') ∧
      Emitted k name s (bytes ++ text.toUTF8) e' s'' := by
  cases h with
  | lost ht hr hb =>
    exact ⟨_, _, rfl, .lost ht hr (hb.trans ((begins_append bytes _).append_left _))⟩
  | kept ht ha hb =>
    rename_i pending
    have hkept : Emitted k name s bytes ⟨pending, none⟩ s' := .kept ht ha hb
    unfold Emitter.emit
    simp only [Option.isSome_none, Bool.false_eq_true, if_false]
    split
    · exact ⟨_, _, rfl, hkept.push text.toUTF8⟩
    · obtain ⟨e, s₁, hroom, hemitted, hempty⟩ := hkept.makeRoom text.toUTF8
      rw [Emitter.overflow_eq, run_bind_of hroom]
      exact hemitted.place text.toUTF8 hempty

/-- The texts of several emissions. -/
theorem emitAll {e : Emitter} (h : Emitted k name s bytes e s') (texts : List String) :
    ∃ e' s'', (Emitter.emitAll k.ops name e texts).run s' = (e', s'') ∧
      Emitted k name s (bytes ++ (String.join texts).toUTF8) e' s'' := by
  induction texts generalizing bytes e s' with
  | nil => exact ⟨_, _, rfl, by simpa [String.join] using h⟩
  | cons text texts ih =>
    obtain ⟨e₁, s₁, hrun, hemitted⟩ := h.emit text
    obtain ⟨e₂, s₂, hrun', hemitted'⟩ := ih hemitted
    refine ⟨e₂, s₂, ?_, ?_⟩
    · rw [Emitter.emitAll, run_bind_of hrun, hrun']
    · rw [ByteArray.append_assoc] at hemitted'
      rwa [String.join_cons]

/-- Letting go of the buffer after a failure writes a beginning of what is left, in one write. -/
theorem close {pending : ByteArray} {f : OsError}
    (h : Emitted k name s bytes ⟨pending, some f⟩ s') :
    ∃ s'', (Emitter.close k.ops name ⟨pending, some f⟩).run s' = (.error f, s'') ∧
      Touches name s s'' ∧ k.FirstRefusal s s'' f ∧
      Begins (s''.content name) (s.content name ++ bytes) := by
  cases h with
  | lost ht hr hb =>
    unfold Emitter.close Emitter.flush
    split
    · exact ⟨s', rfl, ht, hr.first (Nat.le_refl _) (Nat.le_succ _), (begins_append ..).trans hb⟩
    · obtain ⟨r, s'', hw, htouches, hwrites, hbegins⟩ := write_begins k name pending s'
      have hrun : (k.ops.write name pending).run s' = (r, s'') := hw
      rw [bind_assoc, run_bind_of hrun]
      refine ⟨s'', ?_, ht.trans htouches, hr.first htouches.writes_le (Nat.le_of_eq hwrites),
        hbegins.trans hb⟩
      cases r <;> rfl

/-- Finishing puts everything into the file, or tells which write was refused first. -/
theorem finish {e : Emitter} (h : Emitted k name s bytes e s') :
    ∃ r s'', (Emitter.finish k.ops name e).run s' = (r, s'') ∧ Touches name s s'' ∧
      ((r = .ok () ∧ k.Accepts s s'' ∧ s''.content name = s.content name ++ bytes) ∨
        ∃ f, r = .error f ∧ k.FirstRefusal s s'' f ∧
          Begins (s''.content name) (s.content name ++ bytes)) := by
  cases h with
  | lost ht hr hb =>
    obtain ⟨s'', hclose, ht, hcase⟩ := (Emitted.lost ht hr hb).close
    rw [Emitter.finish_of_failure k.ops name rfl]
    exact ⟨_, s'', hclose, ht, .inr ⟨_, rfl, hcase⟩⟩
  | kept ht ha hb =>
    obtain ⟨e, s₁, hflush, hemitted, hempty⟩ := (Emitted.kept ht ha hb).flush
    rw [Emitter.finish_of_none k.ops name rfl, run_bind_of hflush]
    cases hemitted with
    | lost ht hr hb =>
      obtain ⟨s'', hclose, ht, hcase⟩ := (Emitted.lost ht hr hb).close
      exact ⟨_, s'', hclose, ht, .inr ⟨_, rfl, hcase⟩⟩
    | kept ht ha hb =>
      obtain rfl := hempty rfl
      exact ⟨_, s₁, rfl, ht, .inl ⟨rfl, ha, by simpa using hb⟩⟩

/-- What is in the file then, if it was empty before. -/
theorem finish_new {e : Emitter} (h : Emitted k name s bytes e s')
    (hempty : s.files name = some .empty) :
    ∃ r s'' content, (Emitter.finish k.ops name e).run s' = (r, s'') ∧ Touches name s s'' ∧
      s''.files name = some content ∧
      ((r = .ok () ∧ k.Accepts s s'' ∧ content = bytes) ∨
        ∃ f, r = .error f ∧ k.FirstRefusal s s'' f ∧ Begins content bytes) := by
  obtain ⟨r, s'', hfinish, ht, hcase⟩ := h.finish
  obtain ⟨content, hcontent⟩ := Option.isSome_iff_exists.1 (ht.stays (by rw [hempty]; rfl))
  refine ⟨r, s'', content, hfinish, ht, hcontent, ?_⟩
  simpa [State.content, hempty, hcontent] using hcase

end Emitted

/-! ## Conversions of files -/

/-- The text of the file at a path, if it can be read and is UTF-8. -/
def text (k : Disk) (path : String) (s : State) : Except OsError String :=
  match k.read path s with
  | .error e => .error e
  | .ok bytes =>
    match String.fromUTF8? bytes with
    | some text => .ok text
    | none => .error .notUtf8

/-- What a conversion leaves, by the stage at which it ends. -/
inductive Effect (k : Disk) (pool : Pool) (dst src : String) (options : ConversionOptions)
    (s s' : State) : Except ConversionError Conversion → Prop
  | unread {e : OsError} :
      k.text src s = .error e → s'.files = s.files →
      Effect k pool dst src options s s' (.error (.read src e.message))
  | unparsed {text : String} {e : SyntaxError} :
      k.text src s = .ok text → File.read ⟨text⟩ = .error e → s'.files = s.files →
      Effect k pool dst src options s s' (.error (.source e))
  | uncreated {text : String} {file : File} {e : OsError} :
      k.text src s = .ok text → File.read ⟨text⟩ = .ok file →
      k.uncreatable dst = some e → s'.files = s.files →
      Effect k pool dst src options s s' (.error (.write dst e.message))
  | unlowered {text : String} {file : File} {function : String} {fault : Fault} :
      k.text src s = .ok text → File.read ⟨text⟩ = .ok file → k.uncreatable dst = none →
      Conversion.ofSourceOn pool ⟨text⟩ options = .error (.lowering function fault) →
      s'.files (k.target dst) = some .empty → (∀ n ≠ k.target dst, s'.files n = s.files n) →
      Effect k pool dst src options s s' (.error (.lowering function fault))
  | written {text : String} {file : File} {c : Conversion} :
      k.text src s = .ok text → File.read ⟨text⟩ = .ok file → k.uncreatable dst = none →
      Conversion.ofSourceOn pool ⟨text⟩ options = .ok c → k.Accepts s s' →
      s'.files (k.target dst) = some c.text.toUTF8 →
      (∀ n ≠ k.target dst, s'.files n = s.files n) →
      Effect k pool dst src options s s' (.ok c)
  | refused {text : String} {file : File} {c : Conversion} {e : OsError} {bytes : ByteArray} :
      k.text src s = .ok text → File.read ⟨text⟩ = .ok file → k.uncreatable dst = none →
      Conversion.ofSourceOn pool ⟨text⟩ options = .ok c → k.FirstRefusal s s' e →
      s'.files (k.target dst) = some bytes → Begins bytes c.text.toUTF8 →
      (∀ n ≠ k.target dst, s'.files n = s.files n) →
      Effect k pool dst src options s s' (.error (.write dst e.message))

/-- Writing a text to a file that was just created. -/
theorem writeText_run (k : Disk) (text : String) (hempty : s.files name = some .empty) :
    ∃ r s' bytes, (writeText k.ops name text).run s = (r, s') ∧ Touches name s s' ∧
      s'.files name = some bytes ∧
      ((r = .ok () ∧ k.Accepts s s' ∧ bytes = text.toUTF8) ∨
        ∃ e, r = .error e ∧ k.FirstRefusal s s' e ∧ Begins bytes text.toUTF8) := by
  obtain ⟨e, s₁, hemit, hemitted⟩ := (Emitted.empty k name s).emit text
  rw [ByteArray.empty_append] at hemitted
  obtain ⟨r, s₂, bytes, hfinish, ht, hbytes, hcase⟩ := hemitted.finish_new hempty
  refine ⟨r, s₂, bytes, ?_, ht, hbytes, hcase⟩
  rw [writeText, run_bind_of hemit, hfinish]

theorem readText_run (k : Disk) (path : String) (s : State) :
    (k.ops.readText path).run s = (k.text path s, s) := by
  have hread : (k.ops.read path).run s = (k.read path s, s) := rfl
  rw [FileOps.readText, run_bind_of hread, text]
  cases k.read path s with
  | error e => rfl
  | ok bytes =>
    dsimp only
    cases String.fromUTF8? bytes <;> rfl

theorem create_run (k : Disk) (path : String) (s : State) :
    (k.ops.create path).run s = k.create path s := rfl

end Disk

/-- **The effect of converting a file.** On every disk, whatever it holds: a source that cannot be
read or parsed and a destination that cannot be created leave every file as it was; a function that
cannot be lowered leaves the destination empty, and the error is that of the conversion in memory;
otherwise the destination holds the text of that conversion and nothing else, or the error is that
of the first write that was refused and it holds a beginning of that text. No other file is changed.
The destination may be the source. -/
theorem convertFile_effect (k : Disk) (pool : Pool) (dst src : String)
    (options : ConversionOptions) (s : Disk.State) :
    ∃ r s', (convertFileOn pool k.ops dst src options).run s = (r, s') ∧
      k.Effect pool dst src options s s' r := by
  rw [convertFileOn, run_bind_of (k.readText_run src s)]
  cases htext : k.text src s with
  | error e => exact ⟨_, _, rfl, .unread htext rfl⟩
  | ok text =>
    dsimp only
    cases hread : File.read ⟨text⟩ with
    | error e => exact ⟨_, _, rfl, .unparsed htext hread rfl⟩
    | ok file =>
      dsimp only
      cases hcreate : k.uncreatable dst with
      | some e =>
        have hrun : (k.ops.create dst).run s = (.error e, s) := by
          rw [Disk.create_run, Disk.create, hcreate]
        rw [run_bind_of hrun]
        exact ⟨_, _, rfl, .uncreated htext hread hcreate rfl⟩
      | none =>
        have hrun : (k.ops.create dst).run s
            = (.ok (k.target dst), s.put (k.target dst) .empty) := by
          rw [Disk.create_run, Disk.create, hcreate]
        rw [run_bind_of hrun]
        have hconversion : Conversion.ofSourceOn pool ⟨text⟩ options
            = Conversion.ofFile pool ⟨text⟩ options file := by
          rw [Conversion.ofSourceOn, hread]
        dsimp only
        cases hc : Conversion.ofFile pool ⟨text⟩ options file with
        | error e =>
          obtain ⟨name, fault, rfl⟩ := Conversion.exists_of_ofFile_error hc
          exact ⟨_, _, rfl, .unlowered htext hread hcreate (hconversion.trans hc)
            (s.put_files _ _) fun n hn => s.put_files_of_ne hn _⟩
        | ok c =>
          obtain ⟨r, s', bytes, hwrite, ht, hfile, hcase⟩ :=
            k.writeText_run c.text (s.put_files (k.target dst) .empty)
          have hframe : ∀ n ≠ k.target dst, s'.files n = s.files n := fun n hn =>
            (ht.frame n hn).trans (s.put_files_of_ne hn _)
          dsimp only
          rw [run_bind_of hwrite]
          rcases hcase with ⟨rfl, ha, rfl⟩ | ⟨e, rfl, hr, hbegins⟩
          · exact ⟨_, _, rfl, .written htext hread hcreate (hconversion.trans hc) ha hfile hframe⟩
          · exact ⟨_, _, rfl,
              .refused htext hread hcreate (hconversion.trans hc) hr hfile hbegins hframe⟩

/-- A source takes the place of a longer file, here its own. -/
example :
    let k : Disk := ⟨fun _ => "a", fun _ => none, fun _ => none, fun _ => none⟩
    let s : Disk.State := ⟨fun _ => some "// as long as it takes\nfunc f() \x7b\x7d\n".toUTF8, 0⟩
    ((convertFile k.ops "b" "a" default).run s).2.files "a"
      = some "void f() \x7b\n\x7d\n".toUTF8 := by
  decide +kernel

end Recast
