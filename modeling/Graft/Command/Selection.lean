import Graft.Command.Error
import Graft.Names

/-!
# Selecting a method and its arguments

* `selectMethod` picks the named method, or the only one.
* `readArguments` reads one value for each parameter.
-/

namespace Graft

/-- The method with a given name among `ids`, or the only one of them if no name is given. -/
def selectMethod (ids : List MethodId) : Option String → Except CommandError MethodId
  | some name =>
    match MethodId.read name with
    | .error e => .error (.body e)
    | .ok wanted => if wanted ∈ ids then .ok wanted else .error (.notDefined wanted)
  | none =>
    match ids with
    | [only] => .ok only
    | ids => .error (.methodCount ids.length)

/-- The values that texts denote as arguments for parameters, counted from `place`. -/
def readValues : (place : Nat) → List ValueType → List String → Except CommandError (List Value)
  | _, [], _ => .ok []
  | _, _ :: _, [] => .ok []
  | place, t :: ts, token :: tokens =>
    match Value.ofText? t token.toList with
    | none => .error (.badArgument place token t)
    | some v => (readValues (place + 1) ts tokens).map (v :: ·)

/-- The arguments that texts denote, one for each parameter. -/
def readArguments (params : List ValueType) (tokens : List String) : Except CommandError (List Value) :=
  if tokens.length = params.length then readValues 0 params tokens
  else .error (.argumentCount params.length tokens.length)

end Graft
