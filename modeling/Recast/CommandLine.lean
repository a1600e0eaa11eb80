import Recast.Files.Convert

/-!
# The command line

Arguments are read from the left: the first request for help, unknown option or
unknown policy settles the run, and no file is touched. Otherwise the last
policy counts, and the paths name the source and the destination.
-/

namespace Recast

namespace CommandLine

/-- The source and the destination when none is named. -/
def defaultSource : String := "hello.go1"

@[inherit_doc defaultSource]
def defaultDestination : String := "out.cpp"

/-- How the command is used. -/
def usage : String :=
  "Usage: gocpp [<src> [<dst>]] [options]\n\n"
    ++ "Translates the functions of a Go source file into C++.\n"
    ++ "Defaults: <src> = " ++ defaultSource ++ ", <dst> = " ++ defaultDestination ++ "\n\n"
    ++ "Options:\n"
    ++ "  --scope=<policy>   Scope policy: isolated (default), chained\n"
    ++ "  --parallel         Translate declarations on a worker pool\n"
    ++ "  -h, --help         Show this message\n"

/-- What an argument asks for. -/
inductive Argument where
  | help
  | parallel
  | scope (policy : String)
  | unknown (option : String)
  | path (path : String)
  deriving Repr, DecidableEq, Inhabited

def Argument.read (arg : String) : Argument :=
  if arg == "-h" || arg == "--help" then .help
  else if arg == "--parallel" then .parallel
  else if arg.startsWith "--scope=" then .scope (String.ofList (arg.toList.drop 8))
  else if arg.startsWith "-" then .unknown arg
  else .path arg

/-- What a run is to do. -/
inductive Plan where
  | help
  | refuse (reason : String) (withUsage : Bool)
  | convert (src dst : String) (options : ConversionOptions)
  deriving Repr, DecidableEq, Inhabited

/-- The plan for the paths and options that were collected. -/
def Plan.ofPaths (options : ConversionOptions) : List String → Plan
  | [] => .convert defaultSource defaultDestination options
  | [src] => .convert src defaultDestination options
  | [src, dst] => .convert src dst options
  | _ => .refuse "too many arguments" true

/-- Reads arguments from the left, given the paths so far, the last one first,
and the options so far. -/
def scan (paths : List String) (options : ConversionOptions) : List String → Plan
  | [] => .ofPaths options paths.reverse
  | arg :: args =>
    match Argument.read arg with
    | .help => .help
    | .parallel => scan paths { options with parallel := true } args
    | .scope policy =>
      match ScopePolicy.ofText? policy with
      | some p => scan paths { options with policy := p } args
      | none => .refuse (ScopePolicy.unknownMessage policy) false
    | .unknown option => .refuse ("unknown option `" ++ option ++ "`") true
    | .path path => scan (path :: paths) options args

def plan (args : List String) : Plan := scan [] default args

/-- How a run ended, and what it said. -/
structure Outcome where
  success : Bool
  said : String
  deriving Repr, DecidableEq, Inhabited

variable {m : Type → Type} [Monad m]

/-- Converts a file. An error is shown in the source as it stands after the
attempt. -/
def convert (ops : FileOps m) (src dst : String) (options : ConversionOptions) : m Outcome := do
  match ← convertFile ops dst src options with
  | .ok conversion =>
    return ⟨true, if conversion.isDegraded then
      "warning: some expressions were replaced with placeholders\n" else ""⟩
  | .error e =>
    let text := match ← ops.readText src with
      | .ok text => text
      | .error _ => ""
    return ⟨false, e.render src ⟨text⟩ ++ "\n"⟩

/-- Carries out a plan. -/
def carryOut (ops : FileOps m) : Plan → m Outcome
  | .help => return ⟨true, usage⟩
  | .refuse reason withUsage =>
    return ⟨false, "error: " ++ reason ++ "\n" ++ if withUsage then usage else ""⟩
  | .convert src dst options => convert ops src dst options

def run (ops : FileOps m) (args : List String) : m Outcome := carryOut ops (plan args)

end CommandLine

end Recast
