import Recast.CommandLine
import Recast.Files.Disk
import Mathlib.Data.List.Basic

/-!
# Arguments

What a list of arguments comes to (`CommandLine.arguments_outcome`). An argument decides the run by
itself (`Decides`), or it is an option to be followed, or it is a path. The first one that decides
settles the run whatever stands around it. If there is none, the run depends on the options only by
the last policy and by whether parallel lowering is among them, so options can stand anywhere.
-/

namespace Recast

theorem ScopePolicy.ofText?_eq_some_iff {t : String} {p : ScopePolicy} :
    ofText? t = some p ↔ t = p.text := by
  constructor
  · intro h
    unfold ofText? at h
    split at h <;> cases h <;> rfl
  · rintro rfl
    exact ofText?_text p

namespace CommandLine

/-! ## What arguments say -/

/-- The option for the policy of this name. -/
def scopeOption (name : String) : String := "--scope=" ++ name

/-- An argument decides the run: it asks for help, or for a policy that there is not, or it is none
of the options. -/
inductive Decides : (arg : String) → Outcome → Prop
  | help {arg : String} : arg = "-h" ∨ arg = "--help" → Decides arg ⟨true, usage⟩
  | policy {name : String} : (∀ p : ScopePolicy, name ≠ p.text) →
      Decides (scopeOption name)
        ⟨false, "error: " ++ ScopePolicy.unknownMessage name ++ "\n"⟩
  | option {arg : String} : arg.startsWith "-" = true → arg ≠ "-h" → arg ≠ "--help" →
      arg ≠ "--parallel" → (∀ name, arg ≠ scopeOption name) →
      Decides arg ⟨false, "error: unknown option `" ++ arg ++ "`\n" ++ usage⟩

/-- The policy that an argument asks for. -/
def policyOf? (arg : String) : Option ScopePolicy :=
  [ScopePolicy.isolated, .chained].find? fun p => arg == scopeOption p.text

/-- An argument is an option that is followed. -/
def isOption (arg : String) : Bool := arg == "--parallel" || (policyOf? arg).isSome

/-- The options with those of more arguments: the last policy counts. -/
def gathered (options : ConversionOptions) (args : List String) : ConversionOptions where
  policy := (args.filterMap policyOf?).getLast?.getD options.policy
  parallel := options.parallel || decide ("--parallel" ∈ args)

theorem gathered_cons (options : ConversionOptions) (arg : String) (args : List String) :
    gathered options (arg :: args) = gathered (gathered options [arg]) args := by
  have hpolicy : ((arg :: args).filterMap policyOf?).getLast?.getD options.policy
      = (args.filterMap policyOf?).getLast?.getD
        (([arg].filterMap policyOf?).getLast?.getD options.policy) := by
    cases hp : policyOf? arg with
    | none => simp [hp]
    | some p => simp [hp, List.getLast?_cons]
  have hparallel : (options.parallel || decide ("--parallel" ∈ arg :: args))
      = (options.parallel || decide ("--parallel" ∈ [arg]) || decide ("--parallel" ∈ args)) := by
    simp [Bool.or_assoc]
  rw [gathered, hpolicy, hparallel]
  rfl

/-! ## One argument -/

theorem startsWith_scope_iff {arg : String} :
    arg.startsWith "--scope=" = true ↔ ∃ name, arg = scopeOption name := by
  rw [String.startsWith_string_iff]
  constructor
  · rintro ⟨name, hname⟩
    refine ⟨String.ofList name, String.toList_injective ?_⟩
    rw [scopeOption, String.toList_append, ← hname]
    exact congrArg _ String.toList_ofList.symm
  · rintro ⟨name, rfl⟩
    rw [scopeOption, String.toList_append]
    exact List.prefix_append _ _

theorem scopeOption_ne {arg : String} (h : arg.startsWith "--scope=" = false) (name : String) :
    arg ≠ scopeOption name := by
  rintro rfl
  rw [startsWith_scope_iff.2 ⟨name, rfl⟩] at h
  cases h

theorem scopeOption_startsWith_dash (name : String) :
    (scopeOption name).startsWith "-" = true := by
  rw [String.startsWith_string_iff, scopeOption, String.toList_append]
  exact ⟨"-scope=".toList ++ name.toList, rfl⟩

theorem scopeOption_injective {s t : String} (h : scopeOption s = scopeOption t) : s = t := by
  have hlist := congrArg String.toList h
  rw [scopeOption, scopeOption, String.toList_append, String.toList_append] at hlist
  exact String.toList_injective (List.append_cancel_left hlist)

theorem policyOf?_eq_some_iff {arg : String} {p : ScopePolicy} :
    policyOf? arg = some p ↔ arg = scopeOption p.text := by
  constructor
  · intro h
    unfold policyOf? at h
    have hp := List.find?_some h
    exact eq_of_beq hp
  · rintro rfl
    cases p <;> decide +kernel

theorem isOption_iff {arg : String} :
    isOption arg = true ↔ arg = "--parallel" ∨ ∃ p : ScopePolicy, arg = scopeOption p.text := by
  rw [isOption, Bool.or_eq_true, beq_iff_eq, Option.isSome_iff_exists]
  simp only [policyOf?_eq_some_iff]

/-- An argument that decides the run is not an option that is followed. -/
theorem Decides.isOption_eq_false {arg : String} {o : Outcome} (h : Decides arg o) :
    isOption arg = false := by
  rw [Bool.eq_false_iff, ne_eq, isOption_iff]
  rintro (hparallel | ⟨p, hp⟩)
  · cases h with
    | help h => rcases h with rfl | rfl <;> simp at hparallel
    | policy h => exact scopeOption_ne (by decide +kernel) _ hparallel.symm
    | option _ _ _ h => exact h hparallel
  · cases h with
    | help h => rcases h with rfl | rfl <;> exact scopeOption_ne (by decide +kernel) _ hp
    | policy h => exact h p (scopeOption_injective hp)
    | option _ _ _ _ h => exact h _ hp

theorem Decides.startsWith_dash {arg : String} {o : Outcome} (h : Decides arg o) :
    arg.startsWith "-" = true := by
  cases h with
  | help h => rcases h with rfl | rfl <;> decide +kernel
  | policy _ => exact scopeOption_startsWith_dash _
  | option h => exact h

/-- The other arguments are the options that are followed and the paths, which begin with no
dash. -/
theorem not_decides_iff {arg : String} :
    (∀ o, ¬ Decides arg o) ↔ isOption arg = true ∨ arg.startsWith "-" = false := by
  constructor
  · intro h
    refine or_iff_not_imp_left.2 fun hoption => ?_
    rw [isOption_iff, not_or] at hoption
    rw [Bool.eq_false_iff]
    intro hdash
    refine h _ (.option hdash ?_ ?_ hoption.1 ?_)
    · rintro rfl
      exact h _ (.help (.inl rfl))
    · rintro rfl
      exact h _ (.help (.inr rfl))
    · rintro name rfl
      exact h _ (.policy fun p hp => hoption.2 ⟨p, by rw [hp]⟩)
  · rintro (hoption | hpath) o ho
    · rw [ho.isOption_eq_false] at hoption
      cases hoption
    · rw [ho.startsWith_dash] at hpath
      cases hpath

theorem read_scopeOption (name : String) : Argument.read (scopeOption name) = .scope name := by
  have hdrop : (scopeOption name).toList.drop 8 = name.toList := by
    rw [scopeOption, String.toList_append]
    exact List.drop_left' rfl
  rw [Argument.read, beq_false_of_ne (scopeOption_ne (by decide +kernel) name).symm,
    beq_false_of_ne (scopeOption_ne (by decide +kernel) name).symm,
    beq_false_of_ne (scopeOption_ne (by decide +kernel) name).symm,
    startsWith_scope_iff.2 ⟨name, rfl⟩, hdrop, String.ofList_toList]
  rfl

variable {m : Type → Type} [Monad m] {arg : String}

/-- What an argument decides does not depend on what stands around it. -/
theorem scan_of_decides {o : Outcome} (h : Decides arg o) :
    ∃ plan : Plan, (∀ paths options args, scan paths options (arg :: args) = plan) ∧
      ∀ ops : FileOps m, carryOut ops plan = pure o := by
  cases h with
  | help h =>
    refine ⟨.help, fun paths options args => ?_, fun ops => rfl⟩
    rcases h with rfl | rfl <;> rfl
  | @policy name h =>
    have hnone : ScopePolicy.ofText? name = none := by
      refine Option.eq_none_iff_forall_ne_some.2 fun p hp => h p ?_
      exact ScopePolicy.ofText?_eq_some_iff.1 hp
    refine ⟨.refuse (ScopePolicy.unknownMessage name) false, fun paths options args => ?_,
      fun ops => ?_⟩
    · rw [scan, read_scopeOption]
      dsimp only
      rw [hnone]
    · rw [carryOut, if_neg (by decide), String.append_empty]
  | option hdash hh hhelp hparallel hscope =>
    have hread : Argument.read arg = .unknown arg := by
      have hnot : arg.startsWith "--scope=" = false := by
        rw [Bool.eq_false_iff, ne_eq, startsWith_scope_iff, not_exists]
        exact hscope
      rw [Argument.read, beq_false_of_ne hh, beq_false_of_ne hhelp, beq_false_of_ne hparallel, hnot,
        hdash]
      rfl
    refine ⟨.refuse ("unknown option `" ++ arg ++ "`") true, fun paths options args => ?_,
      fun ops => ?_⟩
    · rw [scan, hread]
    · have hsaid : "error: " ++ ("unknown option `" ++ arg ++ "`") ++ "\n" ++ usage
          = "error: unknown option `" ++ arg ++ "`\n" ++ usage := by
        apply String.toList_injective
        simp
      rw [carryOut, if_pos rfl, hsaid]

/-- An option adds to the options only. -/
theorem scan_of_isOption (h : isOption arg = true) (paths : List String)
    (options : ConversionOptions) (args : List String) :
    scan paths options (arg :: args) = scan paths (gathered options [arg]) args := by
  rcases isOption_iff.1 h with rfl | ⟨p, rfl⟩
  · have hgathered : gathered options ["--parallel"] = { options with parallel := true } := by
      simp [gathered, show policyOf? "--parallel" = none by decide +kernel]
    rw [hgathered]
    rfl
  · have hne : "--parallel" ≠ scopeOption p.text := scopeOption_ne (by decide +kernel) _
    have hgathered : gathered options [scopeOption p.text] = { options with policy := p } := by
      simp [gathered, policyOf?_eq_some_iff.2 rfl, hne]
    rw [hgathered, scan, read_scopeOption]
    dsimp only
    rw [ScopePolicy.ofText?_text]

/-- A path is collected. -/
theorem scan_of_path (h : arg.startsWith "-" = false) (paths : List String)
    (options : ConversionOptions) (args : List String) :
    scan paths options (arg :: args) = scan (arg :: paths) options args := by
  have hne {t : String} (ht : t.startsWith "-" = true) : arg ≠ t := by
    rintro rfl
    rw [h] at ht
    cases ht
  have hscope : arg.startsWith "--scope=" = false := by
    rw [Bool.eq_false_iff, ne_eq, startsWith_scope_iff, not_exists]
    exact fun name => hne (scopeOption_startsWith_dash name)
  have hread : Argument.read arg = .path arg := by
    rw [Argument.read, beq_false_of_ne (hne (by decide +kernel)),
      beq_false_of_ne (hne (by decide +kernel)), beq_false_of_ne (hne (by decide +kernel)), hscope,
      h]
    rfl
  rw [scan, hread]

theorem gathered_of_isOption_eq_false (h : isOption arg = false) (options : ConversionOptions) :
    gathered options [arg] = options := by
  obtain ⟨hparallel, hpolicy⟩ := Bool.or_eq_false_iff.1 h
  have hnone : policyOf? arg = none := by simpa using hpolicy
  have hne : "--parallel" ≠ arg := fun he => ne_of_beq_false hparallel he.symm
  simp [gathered, hnone, hne]

/-! ## All arguments -/

/-- Options can be left out of the arguments if they are gathered before. -/
theorem scan_eq_filter (paths : List String) (options : ConversionOptions) (args : List String) :
    scan paths options args
      = scan paths (gathered options args) (args.filter (!isOption ·)) := by
  induction args generalizing paths options with
  | nil => simp [gathered]
  | cons arg args ih =>
    by_cases hoption : isOption arg = true
    · rw [scan_of_isOption hoption, ih, gathered_cons options arg args,
        List.filter_cons_of_neg (by rw [hoption]; decide)]
    · rw [List.filter_cons_of_pos (by simpa using hoption)]
      by_cases hdecides : ∃ o, Decides arg o
      · -- both scans end here, so the options that were gathered from the rest do not count
        obtain ⟨o, ho⟩ := hdecides
        obtain ⟨plan, hplan, -⟩ := scan_of_decides (m := Id) ho
        rw [hplan, hplan]
      · have hpath := (not_decides_iff.1 (not_exists.1 hdecides)).resolve_left hoption
        have hgathered : gathered options (arg :: args) = gathered options args := by
          rw [gathered_cons, gathered_of_isOption_eq_false (Bool.eq_false_iff.2 hoption)]
        rw [scan_of_path hpath, scan_of_path hpath, ih, hgathered]

/-- Arguments none of which is an option are paths. -/
theorem scan_paths {args : List String} (h : ∀ arg ∈ args, arg.startsWith "-" = false)
    (paths : List String) (options : ConversionOptions) :
    scan paths options args = .ofPaths options (paths.reverse ++ args) := by
  induction args generalizing paths with
  | nil => rw [scan, List.append_nil]
  | cons arg args ih =>
    rw [scan_of_path (h arg List.mem_cons_self), ih fun a ha => h a (List.mem_cons_of_mem arg ha),
      List.reverse_cons, List.append_assoc, List.singleton_append]

/-- The arguments before one that decides the run only change what is collected. -/
theorem scan_append {before : List String} (h : ∀ arg ∈ before, ∀ o, ¬ Decides arg o)
    (paths : List String) (options : ConversionOptions) (args : List String) :
    ∃ paths' options', scan paths options (before ++ args) = scan paths' options' args := by
  induction before generalizing paths options with
  | nil => exact ⟨paths, options, rfl⟩
  | cons arg before ih =>
    have ih := ih fun a ha => h a (List.mem_cons_of_mem arg ha)
    rw [List.cons_append]
    by_cases hoption : isOption arg = true
    · rw [scan_of_isOption hoption]
      exact ih _ _
    · have hpath := (not_decides_iff.1 (h arg List.mem_cons_self)).resolve_left hoption
      rw [scan_of_path hpath]
      exact ih _ _

/-- **What the arguments come to.** The first argument that decides the run does so whatever stands
before and after it, and no file is touched. If there is none, the last policy counts, lowering is
parallel if this is asked for anywhere, and the other arguments are the source and the destination;
more than two of them are refused, and no file is touched. Moving options changes nothing, as long
as the policies stay in their order and the other arguments in theirs. -/
theorem arguments_outcome (ops : FileOps m) (args : List String) :
    (∀ before arg after o, args = before ++ arg :: after →
      (∀ a ∈ before, ∀ o', ¬ Decides a o') → Decides arg o → run ops args = pure o) ∧
    ((∀ arg ∈ args, ∀ o, ¬ Decides arg o) →
      ∃ options : ConversionOptions,
        options.policy = (args.filterMap policyOf?).getLast?.getD .isolated ∧
        (options.parallel = true ↔ "--parallel" ∈ args) ∧
        run ops args = match args.filter (!isOption ·) with
          | [] => convert ops "hello.go1" "out.cpp" options
          | [src] => convert ops src "out.cpp" options
          | [src, dst] => convert ops src dst options
          | _ => pure ⟨false, "error: too many arguments\n" ++ usage⟩) ∧
    ∀ args' : List String, args'.Perm args →
      args'.filter (!isOption ·) = args.filter (!isOption ·) →
      args'.filterMap policyOf? = args.filterMap policyOf? → run ops args' = run ops args := by
  refine ⟨?_, fun h => ?_, fun args' hperm hrest hpolicies => ?_⟩
  · rintro before arg after o rfl hbefore ho
    obtain ⟨plan, hplan, hout⟩ := scan_of_decides (m := m) ho
    obtain ⟨paths, options, hscan⟩ := scan_append hbefore [] default (arg :: after)
    rw [run, CommandLine.plan, hscan, hplan, hout]
  · have hpaths : ∀ arg ∈ args.filter (!isOption ·), arg.startsWith "-" = false := by
      intro arg harg
      obtain ⟨hmem, hnot⟩ := List.mem_filter.1 harg
      exact (not_decides_iff.1 (h arg hmem)).resolve_left (by simpa using hnot)
    refine ⟨gathered default args, rfl, ?_, ?_⟩
    · exact decide_eq_true_iff
    · rw [run, CommandLine.plan, scan_eq_filter, scan_paths hpaths, List.reverse_nil,
        List.nil_append]
      generalize args.filter (!isOption ·) = rest
      match rest with
      | [] | [_] | [_, _] | _ :: _ :: _ :: _ => rfl
  · have hgathered : gathered default args' = gathered default args := by
      rw [gathered, gathered, hpolicies, decide_eq_decide.2 hperm.mem_iff]
    rw [run, run, CommandLine.plan, CommandLine.plan, scan_eq_filter, hrest, hgathered,
      ← scan_eq_filter]

/-- Options before and among the paths, and a policy that a later one replaces. -/
def mixedArguments : List String :=
  ["--parallel", "--scope=isolated", "a.go", "--scope=chained", "b.cpp"]

theorem arguments_outcome_mixed :
    let k : Disk := ⟨id, fun _ => none, fun _ => none, fun _ => none⟩
    run k.ops mixedArguments = convert k.ops "a.go" "b.cpp" ⟨.chained, true⟩ ∧
    run k.ops (mixedArguments ++ "-v" :: ["--help"])
      = pure ⟨false, "error: unknown option `-v`\n" ++ usage⟩ := by
  intro k
  have hnone : ∀ arg ∈ mixedArguments, ∀ o, ¬ Decides arg o := by
    have hkinds : ∀ arg ∈ mixedArguments, isOption arg = true ∨ arg.startsWith "-" = false := by
      decide +kernel
    exact fun arg harg => not_decides_iff.2 (hkinds arg harg)
  have hv : Decides "-v" ⟨false, "error: unknown option `-v`\n" ++ usage⟩ :=
    .option (by decide +kernel) (by decide) (by decide) (by decide)
      (scopeOption_ne (by decide +kernel))
  constructor
  · obtain ⟨⟨policy, parallel⟩, hpolicy, hparallel, hrun⟩ :=
      (arguments_outcome k.ops mixedArguments).2.1 hnone
    obtain rfl : policy = .chained := hpolicy.trans (by decide +kernel)
    obtain rfl : parallel = true := hparallel.2 (by decide)
    have hpaths : mixedArguments.filter (!isOption ·) = ["a.go", "b.cpp"] := by decide +kernel
    rwa [hpaths] at hrun
  · exact (arguments_outcome k.ops _).1 mixedArguments "-v" ["--help"] _ rfl hnone hv

end CommandLine

end Recast
