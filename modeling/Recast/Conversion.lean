import Recast.Grammar.File
import Recast.Lowering.Func
import Recast.Pool

/-!
# Conversions

A conversion lowers every function of a source, one after another or on a pool, and
keeps the results in source order. If some function cannot be lowered, the first of
them in source order is the error, whatever was done first, and no text is emitted.
-/

namespace Recast

/-- How a source is converted: the scope policy, and whether functions are lowered on a
pool. -/
structure ConversionOptions where
  policy : ScopePolicy
  parallel : Bool
  deriving Repr, DecidableEq

instance : Inhabited ConversionOptions := ⟨⟨default, false⟩⟩

inductive ConversionError where
  | read (path reason : String)
  | write (path reason : String)
  | source (e : SyntaxError)
  | lowering (function : String) (fault : Fault)
  deriving Repr, DecidableEq, Inhabited

namespace ConversionError

def message : ConversionError → String
  | .read path reason => "failed to read `" ++ path ++ "`: " ++ reason
  | .write path reason => "failed to write `" ++ path ++ "`: " ++ reason
  | .source e => e.message
  | .lowering function fault => "in function `" ++ function ++ "`: " ++ fault.message

def code? : ConversionError → Option String
  | .lowering _ (.rejected r) => some r.cause.code
  | _ => none

/-- The place of the error in the source, if it has one. -/
def span? : ConversionError → Option Span
  | .lowering _ (.rejected r) => some r.span
  | .source e => e.span?
  | _ => none

/-- The text shown to the user: the message with its code, and the place, in a
file of a given name and content, if the file reaches that far. -/
def render (e : ConversionError) (file : String) (src : Source) : String :=
  let head := match e.code? with
    | some code => "error[" ++ code ++ "]: "
    | none => "error: "
  let place := match e.span? with
    | some span =>
      if span.stop ≤ src.size then
        let (line, column) := src.position span.start
        "\n  --> " ++ file ++ ":" ++ toString line ++ ":" ++ toString column
      else ""
    | none => ""
  head ++ e.message ++ place

end ConversionError

/-- The functions of a source with their C++ forms, in source order, and the text of
all of them. -/
structure Conversion where
  text : String
  functions : List (String × Func.Lowered)

namespace Conversion

/-- The text only approximates the source. -/
def isDegraded (c : Conversion) : Bool := c.functions.any fun (_, l) => l.isDegraded

/-- The C++ form of every function, or why it has none. -/
def lowerAll (pool : Pool) (src : Source) (options : ConversionOptions) (funcs : List Func) :
    List (Except Fault Func.Lowered) :=
  if !options.parallel || funcs.length < 2 then funcs.map (·.lower src options.policy)
  else pool.map (·.lower src options.policy) funcs

/-- What came of a function, under its name. -/
def entry : Func × Except Fault Func.Lowered → Except ConversionError (String × Func.Lowered)
  | (f, .ok lowered) => .ok (f.name.name, lowered)
  | (f, .error fault) => .error (.lowering f.name.name fault)

/-- Lowers the functions of a file, and emits their texts if there is no error. -/
def emitFile {m : Type → Type} [Monad m] (emit : String → m Unit) (pool : Pool) (src : Source)
    (options : ConversionOptions) (file : File) :
    m (Except ConversionError (List (String × Func.Lowered))) := do
  match (file.funcs.zip (lowerAll pool src options file.funcs)).mapM entry with
  | .error e => return .error e
  | .ok functions =>
    functions.forM fun (_, lowered) => emit lowered.text
    return .ok functions

/-- Emits to the end of a text. -/
def append (t : String) : StateM String Unit := modify (· ++ t)

/-- The conversion of a file, its text in memory. -/
def ofFile (pool : Pool) (src : Source) (options : ConversionOptions) (file : File) :
    Except ConversionError Conversion :=
  let (functions, text) := (emitFile append pool src options file).run ""
  functions.map (⟨text, ·⟩)

/-- The conversion of a source with a given pool. -/
def ofSourceOn (pool : Pool) (src : Source) (options : ConversionOptions) :
    Except ConversionError Conversion :=
  match File.read src with
  | .error e => .error (.source e)
  | .ok file => ofFile pool src options file

@[inherit_doc ofSourceOn]
def ofSource (src : Source) (options : ConversionOptions) : Except ConversionError Conversion :=
  ofSourceOn .inOrder src options

end Conversion

end Recast
