import Recast.Files.Operations

/-!
# Disks

An abstract file system. Paths lead to files in any way, two of them possibly to the
same file; any path may be closed to reading or to creating, and any write may be
refused, after some of its bytes were taken. `Disk.ops` are the operations of a disk
on what it holds.
-/

namespace Recast

/-- How a file system answers. -/
structure Disk where
  /-- The file that a path leads to. -/
  target : (path : String) → String
  /-- Why the file at a path cannot be read. -/
  unreadable : (path : String) → Option OsError
  /-- Why no file can be created at a path. -/
  uncreatable : (path : String) → Option OsError
  /-- How a write is refused, by the number of writes before it. -/
  refused : (count : Nat) → Option ShortWrite

namespace Disk

/-- What the files hold, and how many writes there have been. -/
structure State where
  files : (name : String) → Option ByteArray
  writes : Nat

/-- What a file holds, or nothing if there is no such file. -/
def State.content (s : State) (name : String) : ByteArray := (s.files name).getD .empty

def State.put (s : State) (name : String) (bytes : ByteArray) : State :=
  { s with files := fun n => if n = name then some bytes else s.files n }

variable (k : Disk)

def read (path : String) (s : State) : Except OsError ByteArray :=
  match k.unreadable path with
  | some e => .error e
  | none =>
    match s.files (k.target path) with
    | some bytes => .ok bytes
    | none => .error .notFound

def create (path : String) (s : State) : Except OsError String × State :=
  match k.uncreatable path with
  | some e => (.error e, s)
  | none => (.ok (k.target path), s.put (k.target path) .empty)

def write (name : String) (bytes : ByteArray) (s : State) : Except ShortWrite Unit × State :=
  match k.refused s.writes with
  | none => (.ok (), { s.put name (s.content name ++ bytes) with writes := s.writes + 1 })
  | some w =>
    (.error w,
      { s.put name (s.content name ++ bytes.extract 0 w.taken) with writes := s.writes + 1 })

abbrev ops : FileOps (StateM State) where
  Handle := String
  read path := fun s => (k.read path s, s)
  create path := k.create path
  write name bytes := k.write name bytes

end Disk

end Recast
