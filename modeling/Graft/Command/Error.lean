import Graft.Command.FileError
import Graft.PatchError

/-!
# Errors of commands

`CommandError` lists the causes, and `CommandError.message` words them.
-/

namespace Graft

/-- Why a command fails. -/
inductive CommandError where
  /-- The words after the program name are not a command. -/
  | usage
  | unreadableFile (reason : FileError)
  | unwritableFile (reason : FileError)
  | body (error : Error)
  | patch (error : PatchError)
  | notDefined (id : MethodId)
  | methodCount (count : Nat)
  | argumentCount (expected found : Nat)
  | badArgument (place : Nat) (token : String) (type : ValueType)
  | patchFailed (target : MethodId) (reason : PatchError)
deriving DecidableEq, Repr

namespace CommandError

open Text.Numeral in
/-- The wording of an error. -/
def message : CommandError → String
  | usage =>
    "usage: decode INPUT [--json] | encode INPUT [--digest-only] | patch INPUT --plan FILE [--settings FILE] " ++
      "[--emit FILE] | run INPUT [--method METHOD] [--arg VALUE]... [--plan FILE [--settings FILE]]"
  | unreadableFile reason => "file error: " ++ reason.message
  | unwritableFile reason => reason.message
  | body error => error.message
  | patch error => error.message
  | notDefined id => "method selection: " ++ id.text ++ " is not defined in the module"
  | methodCount count =>
    "method selection: module defines " ++ ofNat count ++ " methods, pick one with --method"
  | argumentCount expected found =>
    "invalid argument: expected " ++ ofNat expected ++ " argument(s), got " ++ ofNat found
  | badArgument place token type =>
    "invalid argument: argument " ++ ofNat place ++ " ('" ++ token ++ "') is not a valid " ++ type.keyword
  | patchFailed target reason => "patch for " ++ target.text ++ " failed: " ++ reason.message

end CommandError

end Graft
