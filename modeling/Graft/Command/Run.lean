import Graft.Assembly.Listing
import Graft.Command.Basic
import Graft.Command.Selection
import Graft.Form.Plan
import Graft.Form.Report
import Graft.Session
import Graft.Text.Hex

/-!
# Carrying out commands

`Command.perform` gives what a command prints, what it fails with, and what it wants written to a file. Plans are read
before settings, and settings before the module.
-/

namespace Graft

/-- A text that is to be written to a file. -/
structure Emission where
  path : String
  content : String
deriving DecidableEq, Repr

/-- What is printed once the text is written. -/
def Emission.notice (e : Emission) : String := "; wrote patch report to " ++ e.path ++ "\n"

/-- What comes of a command. What was printed before a failure stays. -/
structure Outcome where
  output : String := ""
  emission : Option Emission := none
  error : Option CommandError := none
deriving DecidableEq, Repr

namespace Outcome

/-- The outcome of a failure before anything is printed. -/
def failure (e : CommandError) : Outcome := { error := some e }

/-- The outcome of what can fail before anything is printed. -/
def ofExcept : Except CommandError Outcome → Outcome
  | .ok o => o
  | .error e => failure e

/-- The outcome with a text in front of what is printed. -/
def prepend (s : String) (o : Outcome) : Outcome := { o with output := s ++ o.output }

/-- The outcome once the text to be written is written, or could not be written for some reason. -/
def settle (o : Outcome) (reason : Option FileError) : Outcome :=
  match o.emission with
  | none => o
  | some e =>
    match reason with
    | none => { o with output := o.output ++ e.notice, emission := none }
    | some reason => { o with error := some (.unwritableFile reason), emission := none }

end Outcome

namespace Command

/-- The files that a command reads, in this order. -/
def inputs : Command → List String
  | decode input _ => [input]
  | encode input _ => [input]
  | patch input plan settings _ => plan :: settings.toList ++ [input]
  | run input _ _ plan settings => plan.toList ++ settings.toList ++ [input]

variable (files : String → Except FileError String)

/-- The content of a file. -/
def readFile (name : String) : Except CommandError String :=
  (files name).mapError .unreadableFile

/-- The bodies in a file. -/
def readBodies (name : String) : Except CommandError (List Body) := do
  let src ← readFile files name
  (Assembly.bodies src.toList).mapError .body

/-- The plan in a file. -/
def readPlan (name : String) : Except CommandError Plan := do
  let src ← readFile files name
  (Plan.ofText src).mapError .patch

/-- The snapshot in a file. -/
def readSnapshot (name : String) : Except CommandError Snapshot := do
  let src ← readFile files name
  (Snapshot.ofText src).mapError .patch

/-- What a file gives, if one is named. -/
def readOptional {α : Type} (read : String → Except CommandError α) : Option String → Except CommandError (Option α)
  | none => .ok none
  | some name => (read name).map some

/-- The host with the bodies of a module, after a plan was installed and the values of a snapshot were applied, and the
methods of the module. -/
def session (plan : Option Plan) (snap : Option Snapshot) (bs : List Body) :
    Except CommandError (Host × List MethodId) := do
  let h ← (Session.start plan snap).mapError .patch
  let h ← (Session.load h bs).mapError .body
  return (h, bs.map Body.method)

/-- The canonical bytes and the digest of a body that passes verification. -/
def encoded (digestOnly : Bool) (b : Body) : Except Error String := do
  b.verify
  let digest ← b.digestText
  if digestOnly then return b.method.text ++ " " ++ digest ++ "\n"
  let bytes ← b.encode
  return b.method.text ++ " (" ++ Text.Numeral.ofNat bytes.length ++ " bytes, digest " ++ digest ++ ")\n0x" ++
    Text.hex bytes ++ "\n"

/-- Prints the bytes and digests of bodies up to the first that fails. -/
def encodeAll (digestOnly : Bool) : List Body → Outcome
  | [] => {}
  | b :: bs =>
    match encoded digestOnly b with
    | .error e => .failure (.body e)
    | .ok s => (encodeAll digestOnly bs).prepend s

/-- Prints the patched methods up to the first whose patch failed; what was not patched is passed over. -/
def printPatched (w : World) : List MethodId → Outcome
  | [] => {}
  | target :: targets =>
    match (w.registry.get? target).map Registration.state with
    | some (.applied digest) =>
      match w.table.body target with
      | .error e => (Outcome.failure (.body e)).prepend (headline target digest)
      | .ok b => (printPatched w targets).prepend (headline target digest ++ b.listing ++ "\n")
    | some (.failed reason) => .failure (.patchFailed target reason)
    | _ => printPatched w targets
where
  /-- The line above the listing of a patched method. -/
  headline (target : MethodId) (digest : String) : String :=
    "; " ++ target.text ++ " patched (body " ++ digest ++ ")\n"

/-- Carries out a command on the files that `files` gives. -/
def perform : Command → Outcome
  | decode input json =>
    .ofExcept do
      let bs ← readBodies files input
      if json then return { output := (Json.arr (bs.map Body.decoded)).pretty ++ "\n" }
      return { output := String.join (bs.map fun b => b.listing ++ "\n") }
  | encode input digestOnly =>
    .ofExcept do
      let bs ← readBodies files input
      return encodeAll digestOnly bs
  | patch input planPath settings report =>
    .ofExcept do
      let plan ← readPlan files planPath
      let snap ← readOptional (readSnapshot files) settings
      let bs ← readBodies files input
      let (h, ids) ← session (some plan) snap bs
      let content ← (h.world.report ids).mapError .body
      let o := printPatched h.world plan.targets
      if o.error.isSome then return o
      return { o with emission := report.map fun path => ⟨path, content.pretty⟩ }
  | run input method args planPath settings =>
    .ofExcept do
      let plan ← readOptional (readPlan files) planPath
      let snap ← readOptional (readSnapshot files) settings
      let bs ← readBodies files input
      let (h, ids) ← session plan snap bs
      let target ← selectMethod ids method
      let signature ← (h.world.table.signature target).mapError .body
      let values ← readArguments signature.params args
      let result ← (h.invoke target values).1.mapError .body
      return { output := ((result.map Value.text).getD "(void)") ++ "\n" }

end Command

end Graft
