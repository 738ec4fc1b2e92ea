import Graft.Command.Path
import Graft.Command.Run
import Graft.Dict

/-!
# Directories

Files by name, without directories in them. A command line is carried out in a directory, and may leave one file more,
or another content of one.
-/

namespace Graft

/-- The contents of files by their names. -/
structure Directory where
  files : Dict String String := {}
deriving DecidableEq

namespace Directory

/-- Where a path leads from a directory. -/
def destination (d : Directory) (path : String) : Except FileError Destination :=
  Path.destination (fun name => (d.files.get? name).isSome) path

/-- The content of the file to which a path leads. -/
def read (d : Directory) (path : String) : Except FileError String :=
  match d.destination path with
  | .error e => .error e
  | .ok .directory => .error .isDirectory
  | .ok (.name name inside slash) =>
    if Path.nameBound ≤ name.utf8ByteSize then .error .nameTooLong
    else
      match if inside then d.files.get? name else none with
      | none => .error .notFound
      | some content => if slash then .error .notDirectory else .ok content

/-- The directory after a file was written where a path leads. A file outside of it does not change it. -/
def write (d : Directory) (path content : String) : Except FileError Directory :=
  match d.destination path with
  | .error e => .error e
  | .ok .directory => .error .isDirectory
  | .ok (.name name inside slash) =>
    if slash then .error .isDirectory
    else if Path.nameBound ≤ name.utf8ByteSize then .error .nameTooLong
    else .ok (if inside then ⟨d.files.insert name content⟩ else d)

/-- Carries out a command line: what comes of it, and the directory afterwards. -/
def perform (d : Directory) (words : List String) : Outcome × Directory :=
  match Command.ofWords? words with
  | none => (.failure .usage, d)
  | some c =>
    let o := c.perform d.read
    match o.emission with
    | none => (o, d)
    | some e =>
      match d.write e.path e.content with
      | .ok d => (o.settle none, d)
      | .error x => (o.settle (some x), d)

end Directory

end Graft
