import Graft.Body.Effect

/-!
# Errors about patches

`PatchError` lists the causes, and `PatchError.message` words them.
-/

namespace Graft

/-- Why a patch plan is rejected. -/
inductive PlanFault where
  | declaredTwice (key : String)
  | noRules (name : String) (target : MethodId)
  | undeclared (name key : String)
  | claimedTwice (key : String)
  | missing (key : String)
  | stated (reason : String)
deriving DecidableEq, Repr

/-- The wording of a fault of a plan. -/
def PlanFault.message : PlanFault → String
  | declaredTwice key => "setting '" ++ key ++ "' declared twice"
  | noRules name target => "patch '" ++ name ++ "' for " ++ target.text ++ " has no rules"
  | undeclared name key => "patch '" ++ name ++ "' uses undeclared setting '" ++ key ++ "'"
  | claimedTwice key => "rule for setting '" ++ key ++ "' selects an instruction another rule already replaces"
  | missing key => "setting '" ++ key ++ "' is missing"
  | stated reason => reason

/-- Why an operation on patches or settings fails. -/
inductive PatchError where
  | body (error : Error)
  | noCurrentInstruction
  | effectMismatch (removed : Option Effect) (provided : ValueType)
  | settingType (key : String) (expected found : ValueType)
  | unknownSetting (key : String)
  | plan (fault : PlanFault)
  | unreadable
deriving DecidableEq, Repr

namespace PatchError

/-- The wording of an error. -/
def message : PatchError → String
  | body error => error.message
  | noCurrentInstruction => "cursor is not positioned on an instruction"
  | effectMismatch removed provided =>
    "stack effect mismatch: removed instruction " ++ ((removed.map Effect.text).getD "with an unknown stack effect") ++
      ", provider pushes " ++ provided.keyword
  | settingType key expected found =>
    "setting '" ++ key ++ "' holds " ++ expected.keyword ++ ", got " ++ found.keyword
  | unknownSetting key => "no setting '" ++ key ++ "'"
  | plan fault => "invalid patch plan: " ++ fault.message
  | unreadable => "serialization error"

end PatchError


end Graft
