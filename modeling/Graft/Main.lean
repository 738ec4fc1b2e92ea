import Graft.Command.Run

/-!
# The program

Carries out the command line on the files of the working directory, and ends with 0, with 1 after a failure, or with 2
if the command line makes no sense.
-/

namespace Graft

/-- The cause of what the system reports of a path. -/
def FileError.ofReport (path : String) (e : IO.Error) : FileError :=
  if path.toList.contains '\x00' then .zeroCharacter
  else
    match e with
    | .noFileOrDirectory _ _ _ => .notFound
    | .inappropriateType _ code _ => if code = 21 ∨ code = -21 then .isDirectory else .notDirectory
    | .invalidArgument _ code _ => if code = 36 ∨ code = -36 then .nameTooLong else .other (toString e)
    | e => .other (toString e)

/-- The contents of files, or why they cannot be read. -/
def readFiles (paths : List String) : IO (List (String × Except FileError String)) :=
  paths.mapM fun (path : String) => do
    try
      return (path, .ok (← IO.FS.readFile path))
    catch e => return (path, .error (.ofReport path e))

/-- Writes the text that a command wants written. -/
def Outcome.emit (o : Outcome) : IO Outcome := do
  match o.emission with
  | none => return o
  | some e =>
    try
      IO.FS.writeFile e.path e.content
      return o.settle none
    catch x => return o.settle (some (.ofReport e.path x))

/-- Carries out a command. -/
def Command.execute (c : Command) : IO UInt32 := do
  let files ← readFiles c.inputs
  let o ← (c.perform fun path => (files.lookup path).getD (.error .notFound)).emit
  IO.print o.output
  match o.error with
  | none => return 0
  | some e =>
    IO.eprintln ("Error: " ++ e.message)
    return 1

end Graft

/-- Carries out the command line. -/
def main (words : List String) : IO UInt32 :=
  match Graft.Command.ofWords? words with
  | some c => c.execute
  | none => do
    IO.eprintln Graft.CommandError.usage.message
    return 2
