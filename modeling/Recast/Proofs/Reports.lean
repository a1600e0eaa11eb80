import Recast.Proofs.Positions
import Recast.Proofs.SoundFiles

/-!
# Reported faults

What the report of a failed conversion says (`Conversion.report_of_lowering_error`). It names the
first function that cannot be lowered and gives the fault of lowering it. The fault quotes the text
at its place, which lies in the function, and the rendered report ends with the line and the column
of this place, counted on the text before it.
-/

namespace Recast.Conversion

variable {src : Source}

/-- The report of a rejection at a place in the text ends with the line and the column. -/
theorem render_rejected {name : String} {r : Rejection} (hc : src.Cuts r.span) (path : String) :
    (ConversionError.lowering name (.rejected r)).render path src =
      "error[" ++ r.cause.code ++ "]: " ++ (ConversionError.lowering name (.rejected r)).message
        ++ ("\n  --> " ++ path ++ ":" ++ toString (src.position r.span.start).1 ++ ":"
          ++ toString (src.position r.span.start).2) := by
  have hspan : (ConversionError.lowering name (.rejected r)).span? = some r.span := rfl
  have hcode : (ConversionError.lowering name (.rejected r)).code? = some r.cause.code := rfl
  rw [ConversionError.render, hspan, hcode]
  dsimp only
  rw [if_pos hc.within]

/-- A failed conversion reports the first function, in the order of the source, that cannot be
lowered, with its own fault. The fault lies in that function and quotes the text at its place, and
the report ends with the line and the column of that place. -/
theorem report_of_lowering_error {options : ConversionOptions} {name : String} {fault : Fault}
    (h : ofSource src options = .error (.lowering name fault)) :
    ∃ (file : File) (before after : List Func) (f : Func) (r : Rejection) (line column : Nat),
      File.read src = .ok file ∧ file.funcs = before ++ f :: after ∧
      (∀ g ∈ before, ∃ l, g.lower src options.policy = .ok l) ∧
      f.lower src options.policy = .error fault ∧ name = f.name.name ∧
      fault = .rejected r ∧ f.span.Encloses r.span ∧
      src.slice? r.span = some r.cause.quote ∧ src.StandsAt r.span.start line column ∧
      ∀ path, (ConversionError.lowering name fault).render path src =
        "error[" ++ r.cause.code ++ "]: " ++ (ConversionError.lowering name fault).message
          ++ ("\n  --> " ++ path ++ ":" ++ toString line ++ ":" ++ toString column) := by
  obtain ⟨file, before, f, after, hread, hfuncs, hbefore, hf, hname⟩ := first_of_lowering_error h
  have hmem : f ∈ file.funcs := by simp [hfuncs]
  obtain ⟨r, hr, hinside, hnonempty, hquote⟩ := File.lower_error_of_read hread hmem hf
  have hcuts : src.Cuts r.span := .of_slice? hquote
  have hsize : src.size < Span.limit := (File.read_eq_ok_iff.1 hread).1
  -- The place is not empty, so it starts before the end of the text and its column is counted.
  have hbefore_end : r.span.start < src.size := Nat.lt_of_lt_of_le hnonempty hcuts.within
  subst hr
  exact ⟨file, before, after, f, r, _, _, hread, hfuncs, hbefore, hf, hname, rfl, hinside, hquote,
    Source.position_standsAt hsize hcuts.start hbefore_end, fun path => render_rejected hcuts path⟩

/-- A text of two functions, the second of which has a selector on its third line, after a letter of
two bytes. -/
def selectorText : Source :=
  ⟨"func g() \x7b\n\x7d\nfunc f(ä int) \x7b ä += a.b\n\x7d\n"⟩

theorem report_of_selectorText :
    ofSource selectorText ⟨.chained, true⟩
      = .error (.lowering "f" (.rejected ⟨.unsupportedExpression "a.b", ⟨36, 39⟩⟩)) ∧
    ∃ (file : File) (before after : List Func) (f : Func) (r : Rejection) (line column : Nat),
      File.read selectorText = .ok file ∧ file.funcs = before ++ f :: after ∧
      (∀ g ∈ before, ∃ l, g.lower selectorText .chained = .ok l) ∧
      f.lower selectorText .chained
        = .error (.rejected ⟨.unsupportedExpression "a.b", ⟨36, 39⟩⟩) ∧
      "f" = f.name.name ∧
      Fault.rejected ⟨.unsupportedExpression "a.b", ⟨36, 39⟩⟩ = .rejected r ∧
      f.span.Encloses r.span ∧ selectorText.slice? r.span = some r.cause.quote ∧
      selectorText.StandsAt r.span.start line column := by
  have herror : ofSource selectorText ⟨.chained, true⟩
      = .error (.lowering "f" (.rejected ⟨.unsupportedExpression "a.b", ⟨36, 39⟩⟩)) := by
    decide +kernel
  obtain ⟨file, before, after, f, r, line, column, hread, hfuncs, hbefore, hf, hname, hr, hinside,
    hquote, hstands, -⟩ := report_of_lowering_error herror
  exact ⟨herror, file, before, after, f, r, line, column, hread, hfuncs, hbefore, hf, hname, hr,
    hinside, hquote, hstands⟩

end Recast.Conversion
