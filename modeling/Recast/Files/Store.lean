import Recast.Files.Operations

/-!
# File stores

A file system as a value: nodes under absolute paths, and a current directory
from which other paths start. `Store.ops` are the operations of such a store, so
that what a conversion does to files can be computed and reasoned about.
-/

namespace Recast

/-- What stands under a path. A full device takes no byte, a null device takes
every byte and keeps none. -/
inductive Node where
  | file (content : ByteArray)
  | directory
  | fullDevice
  | nullDevice
  deriving Inhabited

/-- Nodes under absolute paths, given by their names from the root, and the
current directory. The root itself is always a directory. -/
structure Store where
  nodes : List (List String × Node)
  current : List String
  deriving Inhabited

namespace Store

def find? (s : Store) (path : List String) : Option Node :=
  if path.isEmpty then some .directory
  else (s.nodes.find? fun (p, _) => p == path).map Prod.snd

def put (s : Store) (path : List String) (node : Node) : Store :=
  { s with nodes := (path, node) :: s.nodes.filter fun (p, _) => p != path }

/-- The longest name that a directory can hold, in bytes. -/
def nameLimit : Nat := 255

/-- Follows names from a directory. Every node on the way has to be one; `..`
leads to the directory around, and from the root to itself. -/
def follow (s : Store) (start : List String) : List String → Except OsError (List String)
  | [] => .ok start
  | name :: names =>
    match s.find? start with
    | none => .error .notFound
    | some .directory =>
      if name == "." then s.follow start names
      else if name == ".." then s.follow start.dropLast names
      else if name.utf8ByteSize > nameLimit then .error .nameTooLong
      else s.follow (start ++ [name]) names
    | some _ => .error .notDirectory

/-- The absolute path that a path in text form leads to. -/
def resolve (s : Store) (path : String) : Except OsError (List String) :=
  if path.isEmpty then .error .notFound
  else if path.contains '\x00' then .error .nulInName
  else
    s.follow (if path.startsWith "/" then [] else s.current)
      ((path.splitOn "/").filter fun name => !name.isEmpty)

def read (s : Store) (path : String) : Except OsError ByteArray := do
  match s.find? (← s.resolve path) with
  | none => throw .notFound
  | some .directory => throw .isDirectory
  | some (.file content) => if path.endsWith "/" then throw .notDirectory else return content
  | some _ => return .empty

/-- The path of a file opened for writing, and the store with it new or empty. -/
def create (s : Store) (path : String) : Except OsError (List String × Store) := do
  let target ← s.resolve path
  match s.find? target with
  | some .directory => throw .isDirectory
  | none =>
    if path.endsWith "/" then throw .isDirectory else return (target, s.put target (.file .empty))
  | some (.file _) =>
    if path.endsWith "/" then throw .notDirectory else return (target, s.put target (.file .empty))
  | some _ => return (target, s)

/-- The store with bytes written at the end of a file. -/
def write (s : Store) (target : List String) (bytes : ByteArray) : Except OsError Store :=
  match s.find? target with
  | some (.file content) => .ok (s.put target (.file (content ++ bytes)))
  | some .fullDevice => if bytes.isEmpty then .ok s else .error .noSpace
  | _ => .ok s

def ops : FileOps (StateM Store) where
  Handle := List String
  read path := fun s => (s.read path, s)
  create path := fun s =>
    match s.create path with
    | .ok (target, s') => (.ok target, s')
    | .error e => (.error e, s)
  write target bytes := fun s =>
    match s.write target bytes with
    | .ok s' => (.ok (), s')
    | .error e => (.error ⟨e, 0⟩, s)

end Store

end Recast
