/-!
# Errors of files

`FileError` lists why a file cannot be read or written, and `FileError.message` words it.
-/

namespace Graft

/-- Why a file cannot be read or written. -/
inductive FileError where
  /-- No path contains the character zero. -/
  | zeroCharacter
  | notFound
  | isDirectory
  /-- The path leads through a file as if it were a directory. -/
  | notDirectory
  | nameTooLong
  /-- Any other cause, in the words of the system. -/
  | other (message : String)
deriving DecidableEq, Repr

/-- The wording of an error. -/
def FileError.message : FileError → String
  | zeroCharacter => "file name contained an unexpected NUL byte"
  | notFound => "No such file or directory (os error 2)"
  | isDirectory => "Is a directory (os error 21)"
  | notDirectory => "Not a directory (os error 20)"
  | nameTooLong => "File name too long (os error 36)"
  | other message => message

end Graft
