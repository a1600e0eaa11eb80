import Mathlib.Data.List.Forall2
import Recast.Conversion

/-!
# Orders of work

An event changes the slot of its task only (`Pool.getElem?_step`), so what becomes of a task is
settled by its own events (`Pool.getElem?_run`). In a schedule these are one start and one finish,
hence any pool gives the results of working from first to last (`Pool.map_eq`), and a conversion is
made of the functions one by one (`Conversion.same_in_any_order`).
-/

namespace Recast

theorem eq_ok_of_toOption {ε α : Type} {r : Except ε α} {a : α} (h : r.toOption = some a) :
    r = .ok a := by
  cases r with
  | error e => cases h
  | ok b =>
    cases h
    rfl

namespace Pool

variable {α β : Type} (work : α → β)

theorem getElem?_step (slots : List (Slot α β)) (e : Event) (i : Nat) :
    (step work slots e)[i]? = if e.task = i then slots[i]?.map (e.act work) else slots[i]? := by
  rw [step, List.getElem?_modify]
  split <;> simp

theorem getElem?_run (events : List Event) (slots : List (Slot α β)) (i : Nat) :
    (run work slots events)[i]? = slots[i]?.map fun slot =>
      (events.filter (·.task == i)).foldl (fun slot e => e.act work slot) slot := by
  induction events generalizing slots with
  | nil => simp [run]
  | cons e events ih =>
    rw [run, List.foldl_cons, ← run, ih, getElem?_step]
    by_cases he : e.task = i
    · rw [if_pos he, List.filter_cons_of_pos (by simpa using he), Option.map_map]
      rfl
    · rw [if_neg he, List.filter_cons_of_neg (by simpa using he)]

namespace Schedule

theorem run_eq {n : Nat} (schedule : Schedule n) {tasks : List α} (hn : tasks.length = n) :
    run work (tasks.map .waiting) schedule.events = tasks.map fun a => .done (work a) := by
  refine List.ext_getElem? fun i => ?_
  rw [getElem?_run, List.getElem?_map, List.getElem?_map, Option.map_map]
  by_cases hi : i < n
  · rw [schedule.once i hi]
    rfl
  · rw [List.getElem?_eq_none (by omega)]
    rfl

theorem map_eq {n : Nat} (schedule : Schedule n) {tasks : List α} (hn : tasks.length = n) :
    schedule.map work tasks = tasks.map work := by
  rw [map, schedule.run_eq work hn, List.filterMap_map]
  exact congrFun List.filterMap_eq_map tasks

end Schedule

/-- A pool gives what working from first to last gives. -/
theorem map_eq (pool : Pool) (tasks : List α) : pool.map work tasks = tasks.map work := by
  unfold map
  split
  · rfl
  · rename_i schedule _
    exact schedule.map_eq work rfl

end Pool

namespace Conversion

variable {src : Source} {policy : ScopePolicy}

/-- Whether a computation fails with a given error can be decided, whatever it yields otherwise. -/
instance {ε α : Type} [DecidableEq ε] (e : ε) : ∀ r : Except ε α, Decidable (r = .error e)
  | .error e' => decidable_of_iff (e' = e) (by rw [Except.error.injEq])
  | .ok _ => .isFalse nofun

theorem lowerAll_eq (pool : Pool) (src : Source) (options : ConversionOptions)
    (funcs : List Func) :
    lowerAll pool src options funcs = funcs.map (·.lower src options.policy) := by
  unfold lowerAll
  split
  · rfl
  · exact pool.map_eq _ funcs

/-- The entry of a function holds its name and its own C++ form. -/
def EntryOf (src : Source) (policy : ScopePolicy) (f : Func) (e : String × Func.Lowered) : Prop :=
  e.1 = f.name.name ∧ f.lower src policy = .ok e.2

theorem mapM_entry_cons (f : Func) (r : Except Fault Func.Lowered)
    (frs : List (Func × Except Fault Func.Lowered)) :
    ((f, r) :: frs).mapM entry = match r with
      | .error fault => .error (.lowering f.name.name fault)
      | .ok l => (frs.mapM entry).map ((f.name.name, l) :: ·) := by
  rw [List.mapM_cons]
  cases r with
  | error fault => rfl
  | ok l => cases frs.mapM entry <;> rfl

/-- Either every function has its entry, or there is a first one that cannot be lowered. -/
theorem mapM_entry_cases (src : Source) (policy : ScopePolicy) (funcs : List Func) :
    (∃ es, (funcs.zip (funcs.map (·.lower src policy))).mapM entry = .ok es ∧
      List.Forall₂ (EntryOf src policy) funcs es) ∨
    ∃ before f after fault, funcs = before ++ f :: after ∧
      (∀ g ∈ before, ∃ l, g.lower src policy = .ok l) ∧ f.lower src policy = .error fault ∧
      (funcs.zip (funcs.map (·.lower src policy))).mapM entry
        = .error (.lowering f.name.name fault) := by
  induction funcs with
  | nil => exact .inl ⟨[], rfl, .nil⟩
  | cons f funcs ih =>
    rw [List.map_cons, List.zip_cons_cons, mapM_entry_cons]
    cases hf : f.lower src policy with
    | error fault => exact .inr ⟨[], f, funcs, fault, rfl, List.forall_mem_nil _, hf, rfl⟩
    | ok l =>
      rcases ih with ⟨es, hes, hentries⟩ | ⟨before, g, after, fault, hfuncs, hbefore, hg, herror⟩
      · exact .inl ⟨(f.name.name, l) :: es, by rw [hes]; rfl, .cons ⟨rfl, hf⟩ hentries⟩
      · exact .inr ⟨f :: before, g, after, fault, by rw [hfuncs]; rfl,
          List.forall_mem_cons.2 ⟨⟨l, hf⟩, hbefore⟩, hg, by rw [herror]; rfl⟩

theorem run_forM_append (es : List (String × Func.Lowered)) (t : String) :
    (es.forM fun e => append e.2.text).run t
      = ((), t ++ String.join (es.map fun e => e.2.text)) := by
  induction es generalizing t with
  | nil => exact congrArg (Prod.mk ()) String.append_empty.symm
  | cons e es ih =>
    rw [List.map_cons, String.join_cons, ← String.append_assoc, ← ih]
    rfl

section Emitted

variable {m : Type → Type} [Monad m] (emit : String → m Unit) {file : File} {pool : Pool}
  {options : ConversionOptions}

theorem emitFile_ok {es : List (String × Func.Lowered)}
    (h : (file.funcs.zip (file.funcs.map (·.lower src options.policy))).mapM entry = .ok es) :
    emitFile emit pool src options file = do
      es.forM fun e => emit e.2.text
      return .ok es := by
  rw [emitFile, lowerAll_eq, h]

theorem emitFile_error {e : ConversionError}
    (h : (file.funcs.zip (file.funcs.map (·.lower src options.policy))).mapM entry = .error e) :
    emitFile emit pool src options file = return .error e := by
  rw [emitFile, lowerAll_eq, h]

theorem ofFile_ok {es : List (String × Func.Lowered)}
    (h : (file.funcs.zip (file.funcs.map (·.lower src options.policy))).mapM entry = .ok es) :
    ofFile pool src options file = .ok ⟨String.join (es.map fun e => e.2.text), es⟩ := by
  have hrun : (emitFile append pool src options file).run ""
      = (.ok es, String.join (es.map fun e => e.2.text)) := by
    rw [emitFile_ok append h, StateT.run_bind, run_forM_append, String.empty_append]
    rfl
  rw [ofFile, hrun]
  rfl

theorem ofFile_error {e : ConversionError}
    (h : (file.funcs.zip (file.funcs.map (·.lower src options.policy))).mapM entry = .error e) :
    ofFile pool src options file = .error e := by
  rw [ofFile, emitFile_error append h]
  rfl

/-- The conversion of a file that is read fails only where a function cannot be lowered. -/
theorem exists_of_ofFile_error {e : ConversionError} (h : ofFile pool src options file = .error e) :
    ∃ name fault, e = .lowering name fault := by
  rcases mapM_entry_cases src options.policy file.funcs with
    ⟨es, hes, -⟩ | ⟨before, f, after, fault, -, -, -, herror⟩
  · cases h.symm.trans (ofFile_ok hes)
  · cases h.symm.trans (ofFile_error herror)
    exact ⟨_, _, rfl⟩

end Emitted

/-- **Any order of work.** Of a source that is read, whatever the pool does and whether it is asked
for or not: either every function can be lowered, and then the conversion has one entry for each
function, in the order of the source, its name and its own C++ form, the text is that of the entries
one after another, and these texts are what any emitter is given; or the error is the name and the
fault of the first function that cannot be lowered, and no emitter is given anything. -/
theorem same_in_any_order {file : File} (hread : File.read src = .ok file) (pool : Pool)
    (options : ConversionOptions) :
    (∃ c, ofSourceOn pool src options = .ok c ∧
      List.Forall₂ (EntryOf src options.policy) file.funcs c.functions ∧
      c.text = String.join (c.functions.map fun e => e.2.text) ∧
      ∀ {m : Type → Type} [Monad m] (emit : String → m Unit),
        emitFile emit pool src options file = do
          c.functions.forM fun e => emit e.2.text
          return .ok c.functions) ∨
    ∃ before f after fault, file.funcs = before ++ f :: after ∧
      (∀ g ∈ before, ∃ l, g.lower src options.policy = .ok l) ∧
      f.lower src options.policy = .error fault ∧
      ofSourceOn pool src options = .error (.lowering f.name.name fault) ∧
      ∀ {m : Type → Type} [Monad m] (emit : String → m Unit),
        emitFile emit pool src options file = return .error (.lowering f.name.name fault) := by
  have hsource : ofSourceOn pool src options = ofFile pool src options file := by
    rw [ofSourceOn, hread]
  rcases mapM_entry_cases src options.policy file.funcs with
    ⟨es, hes, hentries⟩ | ⟨before, f, after, fault, hfuncs, hbefore, hf, herror⟩
  · exact .inl ⟨_, hsource.trans (ofFile_ok hes), hentries, rfl, fun emit => emitFile_ok emit hes⟩
  · exact .inr ⟨before, f, after, fault, hfuncs, hbefore, hf, hsource.trans (ofFile_error herror),
      fun emit => emitFile_error emit herror⟩

/-- Three tasks from last to first, two of them at a time. For another number of tasks there is no
pool. -/
def backwards : Pool
  | 3 => some ⟨[.start 2, .start 1, .finish 2, .start 0, .finish 1, .finish 0],
      by decide, by decide⟩
  | _ => none

/-- Two functions of one name, with a method and a variable between them, and a third one. -/
def crowded : Source :=
  ⟨"func f() \x7b\x7d\nfunc (T) g() \x7b\x7d\nvar v T\nfunc f(n int) \x7b\x7d\nfunc h() \x7b\x7d\n"⟩

/-- Three functions, of which the last two cannot be lowered. -/
def faulty : Source :=
  ⟨"func f() \x7b\x7d\nfunc g() (int, int) \x7b\x7d\nfunc h(int) \x7b\x7d\n"⟩

theorem same_in_any_order_backwards :
    (∃ file c, File.read crowded = .ok file ∧
      ofSourceOn backwards crowded ⟨.chained, true⟩ = .ok c ∧
      c.functions.map Prod.fst = ["f", "f", "h"] ∧
      c.text = "void f() \x7b\n\x7d\nvoid f(long long int n) \x7b\n\x7d\nvoid h() \x7b\n\x7d\n" ∧
      List.Forall₂ (EntryOf crowded .chained) file.funcs c.functions ∧
      c.text = String.join (c.functions.map fun e => e.2.text)) ∧
    ∃ file fault, File.read faulty = .ok file ∧
      fault = .rejected ⟨.multipleReturnTypes "(int, int)", ⟨21, 31⟩⟩ ∧
      ofSourceOn backwards faulty ⟨.chained, true⟩ = .error (.lowering "g" fault) ∧
      (emitFile append backwards faulty ⟨.chained, true⟩ file).run ""
        = (.error (.lowering "g" fault), "") := by
  constructor
  · have hread : (File.read crowded).toOption.isSome = true := by decide +kernel
    obtain ⟨file, hfile⟩ := Option.isSome_iff_exists.1 hread
    replace hfile := eq_ok_of_toOption hfile
    have hc : (ofSourceOn backwards crowded ⟨.chained, true⟩).toOption.map
        (fun c => (c.functions.map Prod.fst, c.text))
          = some (["f", "f", "h"],
            "void f() \x7b\n\x7d\nvoid f(long long int n) \x7b\n\x7d\nvoid h() \x7b\n\x7d\n") := by
      decide +kernel
    rcases same_in_any_order hfile backwards ⟨.chained, true⟩ with
      ⟨c, hok, hentries, htext, -⟩ | ⟨before, f, after, fault, -, -, -, herror, -⟩
    · rw [hok] at hc
      obtain ⟨hnames, hshown⟩ := Prod.mk.inj (Option.some.inj hc)
      exact ⟨file, c, hfile, hok, hnames, hshown, hentries, htext⟩
    · rw [herror] at hc
      cases hc
  · have hread : (File.read faulty).toOption.isSome = true := by decide +kernel
    obtain ⟨file, hfile⟩ := Option.isSome_iff_exists.1 hread
    replace hfile := eq_ok_of_toOption hfile
    have he : ofSourceOn backwards faulty ⟨.chained, true⟩ = .error (.lowering "g"
        (.rejected ⟨.multipleReturnTypes "(int, int)", ⟨21, 31⟩⟩)) := by decide +kernel
    rcases same_in_any_order hfile backwards ⟨.chained, true⟩ with
      ⟨c, hok, -, -, -⟩ | ⟨before, f, after, fault, -, -, -, herror, hemit⟩
    · cases he.symm.trans hok
    · obtain ⟨hname, hfault⟩ :=
        ConversionError.lowering.inj (Except.error.inj (herror.symm.trans he))
      refine ⟨file, fault, hfile, hfault, by rw [herror, hname], ?_⟩
      rw [hemit, hname]
      rfl

end Conversion

end Recast
