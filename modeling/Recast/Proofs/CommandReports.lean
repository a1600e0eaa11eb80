import Recast.CommandLine
import Recast.Proofs.Effects
import Recast.Proofs.Reports

/-!
# What the command line reports

The command line shows an error in the text that the source has after the attempt, which is the text
that was converted unless the attempt changed it. It did just if the destination leads to the source
and a function could not be lowered: then the source is empty, and the place of the error is not
shown (`CommandLine.report_exact_iff`).
-/

namespace Recast

variable {src : Source}

/-! ## Places -/

/-- The place of a rejection is not empty, so it does not end at the start of the text. -/
theorem File.stop_pos_of_lower_error {file : File} (h : read src = .ok file) {f : Func}
    (hf : f ∈ file.funcs) {policy : ScopePolicy} {fault : Fault}
    (he : f.lower src policy = .error fault) :
    ∃ r, fault = .rejected r ∧ src.Cuts r.span ∧ 0 < r.span.stop := by
  obtain ⟨r, hr, -, hnonempty, hquote⟩ := lower_error_of_read h hf he
  exact ⟨r, hr, .of_slice? hquote, Nat.zero_lt_of_lt hnonempty⟩

namespace ConversionError

/-- An error without a place is shown in the same way in every text. -/
theorem render_of_span?_eq_none {e : ConversionError} (h : e.span? = none) (path : String)
    (a b : Source) : e.render path a = e.render path b := by
  rw [render, render, h]

/-- Where the place of a rejection is not in the text, only the message is shown. -/
theorem render_rejected_of_size_lt {name : String} {r : Rejection} (h : src.size < r.span.stop)
    (path : String) :
    (lowering name (.rejected r)).render path src
      = "error[" ++ r.cause.code ++ "]: " ++ (lowering name (.rejected r)).message := by
  have hspan : (lowering name (.rejected r)).span? = some r.span := rfl
  have hcode : (lowering name (.rejected r)).code? = some r.cause.code := rfl
  rw [render, hspan, hcode]
  dsimp only
  rw [if_neg (by omega), String.append_empty]

/-- In a text that the place lies in, more is shown. -/
theorem render_rejected_ne {name : String} {r : Rejection} {a b : Source}
    (ha : a.size < r.span.stop) (hb : b.Cuts r.span) (path : String) :
    (lowering name (.rejected r)).render path a ≠ (lowering name (.rejected r)).render path b := by
  rw [render_rejected_of_size_lt ha, Conversion.render_rejected hb]
  intro h
  have hlist := (congrArg String.toList h).trans String.toList_append
  have hnil := List.self_eq_append_right.1 hlist
  simp at hnil

end ConversionError

/-! ## The source afterwards -/

namespace Disk

variable {k : Disk} {s s' : State}

/-- The text of the file at a path, or nothing if it cannot be read. -/
def textOrEmpty (k : Disk) (path : String) (s : State) : Source :=
  ⟨(k.text path s).toOption.getD ""⟩

theorem text_congr {path : String} (h : s'.files (k.target path) = s.files (k.target path)) :
    k.text path s' = k.text path s := by
  rw [text, text, read, read, h]

/-- A file that was emptied has the empty text. -/
theorem text_of_empty {path : String} (hread : k.unreadable path = none)
    (h : s.files (k.target path) = some .empty) : k.text path s = .ok "" := by
  have hbytes : k.read path s = .ok .empty := by rw [read, hread, h]
  have hempty : String.fromUTF8? .empty = some "" := by decide +kernel
  rw [text, hbytes]
  dsimp only
  rw [hempty]

theorem unreadable_of_text_ok {path t : String} (h : k.text path s = .ok t) :
    k.unreadable path = none := by
  cases hu : k.unreadable path with
  | none => rfl
  | some e =>
    rw [text, read, hu] at h
    cases h

end Disk

namespace CommandLine

variable {args : List String} {dst src : String} {options : ConversionOptions}

/-- What a conversion comes to is what the command line says. -/
theorem run_of_convertFile (k : Disk) (hplan : plan args = .convert src dst options)
    {s s' : Disk.State} {r : Except ConversionError Conversion}
    (h : (convertFile k.ops dst src options).run s = (r, s')) :
    (run k.ops args).run s = match r with
      | .ok c => (⟨true, if c.isDegraded then
          "warning: some expressions were replaced with placeholders\n" else ""⟩, s')
      | .error e => (⟨false, e.render src (k.textOrEmpty src s') ++ "\n"⟩, s') := by
  rw [run, hplan, carryOut, convert, run_bind_of h]
  cases r with
  | ok c => rfl
  | error e =>
    dsimp only
    rw [run_bind_of (k.readText_run src s'), Disk.textOrEmpty]
    cases k.text src s' <;> rfl

/-- The conversion emptied its own source: the destination leads to it, and a function was
refused. -/
def EmptiedSource (k : Disk) (dst src : String) (e : ConversionError) : Prop :=
  k.target dst = k.target src ∧ ∃ name fault, e = .lowering name fault

/-- Otherwise an error is shown in the text that was converted. -/
theorem render_afterwards {k : Disk} {s s' : Disk.State} {e : ConversionError}
    (heffect : k.Effect .inOrder dst src options s s' (.error e))
    (hkept : ¬ EmptiedSource k dst src e) :
    e.render src (k.textOrEmpty src s') = e.render src (k.textOrEmpty src s) := by
  cases heffect with
  | unread | uncreated | refused =>
    exact ConversionError.render_of_span?_eq_none rfl _ _ _
  | unparsed _ _ hfiles =>
    have htext : k.text src s' = k.text src s := Disk.text_congr (by rw [hfiles])
    rw [Disk.textOrEmpty, htext, Disk.textOrEmpty]
  | unlowered _ _ _ _ _ hframe =>
    have hother : k.target src ≠ k.target dst := fun h => hkept ⟨h.symm, _, _, rfl⟩
    have htext : k.text src s' = k.text src s := Disk.text_congr (hframe _ hother)
    rw [Disk.textOrEmpty, htext, Disk.textOrEmpty]

/-- If it emptied its source, the place, which lies in the text that was converted, is not shown. -/
theorem render_emptied {k : Disk} {s s' : Disk.State} {e : ConversionError}
    (heffect : k.Effect .inOrder dst src options s s' (.error e))
    (hemptied : EmptiedSource k dst src e) :
    ∃ name r, e = .lowering name (.rejected r) ∧ (k.textOrEmpty src s).Cuts r.span ∧
      e.render src (k.textOrEmpty src s')
        = "error[" ++ r.cause.code ++ "]: " ++ e.message ∧
      e.render src (k.textOrEmpty src s') ≠ e.render src (k.textOrEmpty src s) := by
  obtain ⟨hsame, name, fault, rfl⟩ := hemptied
  cases heffect with
  | @unlowered text file _ _ htext hread hcreate hlower hempty hframe =>
    have hsource : Conversion.ofSource ⟨text⟩ options = .error (.lowering name fault) := by
      rw [Conversion.ofSource, hlower]
    obtain ⟨file', before, f, after, hread', hfuncs, -, hf, -⟩ :=
      Conversion.first_of_lowering_error hsource
    obtain ⟨r, rfl, hcuts, hpos⟩ :=
      File.stop_pos_of_lower_error hread' (by rw [hfuncs]; simp) hf
    have hbefore : k.textOrEmpty src s = ⟨text⟩ := by rw [Disk.textOrEmpty, htext]; rfl
    have hafter : k.textOrEmpty src s' = ⟨""⟩ := by
      rw [Disk.textOrEmpty, Disk.text_of_empty (Disk.unreadable_of_text_ok htext)
        (by rwa [hsame] at hempty)]
      rfl
    -- nothing is left of the text, and the place does not end at its start
    have hnothing : (Source.mk "").size = 0 := by decide
    have hsize : (Source.mk "").size < r.span.stop := by rwa [hnothing]
    rw [hbefore, hafter]
    exact ⟨name, r, rfl, hcuts, ConversionError.render_rejected_of_size_lt hsize src,
      ConversionError.render_rejected_ne hsize hcuts src⟩

/-- **Errors of the command line.** The run converts the file that the arguments name. If that
succeeds, at most a warning is shown. If it fails, the error is shown in the text that the source
had before the run, except just if the conversion emptied its source: then the place is left out. -/
theorem report_exact_iff (k : Disk) (hplan : plan args = .convert src dst options)
    (s : Disk.State) :
    ∃ r s', (convertFile k.ops dst src options).run s = (r, s') ∧
      (∀ c, r = .ok c → (run k.ops args).run s = (⟨true, if c.isDegraded then
        "warning: some expressions were replaced with placeholders\n" else ""⟩, s')) ∧
      ∀ e, r = .error e → ∃ said, (run k.ops args).run s = (⟨false, said ++ "\n"⟩, s') ∧
        (said = e.render src (k.textOrEmpty src s) ↔ ¬ EmptiedSource k dst src e) ∧
        (EmptiedSource k dst src e → ∃ name r, e = .lowering name (.rejected r) ∧
          (k.textOrEmpty src s).Cuts r.span ∧
          said = "error[" ++ r.cause.code ++ "]: " ++ e.message) := by
  obtain ⟨r, s', hrun, heffect⟩ := convertFile_effect k .inOrder dst src options s
  have hsaid := run_of_convertFile k hplan hrun
  refine ⟨r, s', hrun, ?_, ?_⟩
  · rintro c rfl
    exact hsaid
  · rintro e rfl
    refine ⟨_, hsaid, ⟨fun heq hemptied => ?_, fun hkept => render_afterwards heffect hkept⟩,
      fun hemptied => ?_⟩
    · obtain ⟨_, _, _, _, _, hne⟩ := render_emptied heffect hemptied
      exact hne heq
    · obtain ⟨name, r, he, hcuts, hshown, -⟩ := render_emptied heffect hemptied
      exact ⟨name, r, he, hcuts, hshown⟩

/-- A disk that holds one file, a source with a selector. -/
def selectorFile : Disk.State where
  files name := if name = "a.go" then some "func f() \x7b\n\tx = a.b\n\x7d\n".toUTF8 else none
  writes := 0

theorem report_exact_iff_apart :
    let k : Disk := ⟨id, fun _ => none, fun _ => none, fun _ => none⟩
    plan ["a.go", "b.cpp"] = .convert "a.go" "b.cpp" default ∧
    ∃ e s' said, (convertFile k.ops "b.cpp" "a.go" default).run selectorFile = (.error e, s') ∧
      (run k.ops ["a.go", "b.cpp"]).run selectorFile = (⟨false, said ++ "\n"⟩, s') ∧
      said = e.render "a.go" (k.textOrEmpty "a.go" selectorFile) := by
  intro k
  have hplan : plan ["a.go", "b.cpp"] = .convert "a.go" "b.cpp" default := by decide +kernel
  have hfails :
      ((convertFile k.ops "b.cpp" "a.go" default).run selectorFile).1.toOption.isNone := by
    decide +kernel
  obtain ⟨r, s', hrun, -, herror⟩ := report_exact_iff k hplan selectorFile
  cases r with
  | ok c =>
    rw [hrun] at hfails
    cases hfails
  | error e =>
    obtain ⟨said, hsaid, hiff, -⟩ := herror e rfl
    have hapart : ¬ EmptiedSource k "b.cpp" "a.go" e := fun h => absurd h.1 (by decide)
    exact ⟨hplan, e, s', said, hrun, hsaid, hiff.2 hapart⟩

/-- A source that is its own destination: the error has a place in the text that was converted, and
is shown without it. -/
theorem place_left_out :
    let k : Disk := ⟨id, fun _ => none, fun _ => none, fun _ => none⟩
    let e : ConversionError :=
      .lowering "f" (.rejected ⟨.unsupportedExpression "a.b", ⟨16, 19⟩⟩)
    plan ["a.go", "a.go"] = .convert "a.go" "a.go" default ∧
    (∃ s', (convertFile k.ops "a.go" "a.go" default).run selectorFile = (.error e, s')) ∧
    e.render "a.go" (k.textOrEmpty "a.go" selectorFile) ++ "\n"
      = "error[E2001]: in function `f`: unsupported expression: a.b\n  --> a.go:2:6\n" ∧
    ((run k.ops ["a.go", "a.go"]).run selectorFile).1
      = ⟨false, "error[E2001]: in function `f`: unsupported expression: a.b\n"⟩ := by
  intro k e
  have hfails : ((convertFile k.ops "a.go" "a.go" default).run selectorFile).1 = .error e := by
    decide +kernel
  refine ⟨by decide +kernel, ⟨_, Prod.ext hfails rfl⟩, by decide +kernel, by decide +kernel⟩

end CommandLine

end Recast
