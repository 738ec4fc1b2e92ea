import Graft.Command.FileError
import Graft.Text.Cut

/-!
# Paths

A path is a row of names with slashes between them, to be followed from a directory without directories in it. Of other
directories nothing is known, so they are taken to have no files.

* `Path.destination` says where a path leads, or why it leads nowhere.
* An empty name and a single dot stay where they are; two dots and a slash at the beginning lead out of the directory.
-/

namespace Graft

/-- Where a path leads. -/
inductive Destination where
  | directory
  /-- The last name of the path, of a file in the directory or outside, which there may or may not be; a slash may stand
  behind it. -/
  | name (text : String) (inside slash : Bool)
deriving DecidableEq, Repr

namespace Path

/-- The length that a path must not reach, in bytes. -/
def pathBound : Nat := 4096

/-- The length that a name must not reach, in bytes. -/
def nameBound : Nat := 256

/-- Follows the names of a path from the directory or from outside; `isFile` tells the files of the directory. -/
def walk (isFile : String → Bool) : (inside : Bool) → List (List Char) → Except FileError Destination
  | _, [] => .ok .directory
  | inside, c :: cs =>
    if c = [] ∨ c = ['.'] then walk isFile inside cs
    else if c = ['.', '.'] then walk isFile false cs
    else
      let name := String.ofList c
      if cs.all List.isEmpty then .ok (.name name inside !cs.isEmpty)
      else if nameBound ≤ name.utf8ByteSize then .error .nameTooLong
      else if inside && isFile name then .error .notDirectory
      else .error .notFound

/-- Where a path leads from a directory; `isFile` tells the files in it. -/
def destination (isFile : String → Bool) (path : String) : Except FileError Destination :=
  let cs := path.toList
  if cs.contains '\x00' then .error .zeroCharacter
  else if cs.isEmpty then .error .notFound
  else if pathBound ≤ path.utf8ByteSize then .error .nameTooLong
  else walk isFile (cs.head? != some '/') (Text.partsAt '/' cs)

end Path

end Graft
