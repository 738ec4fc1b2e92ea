import Graft.PatchError
import Graft.Pattern

/-!
# Patch plans

A plan declares settings, and patches that replace instructions by reads of these settings.

* `Plan.validate` asks that keys are declared once and that rules name declared keys.
-/

namespace Graft

/-- The declaration of a setting. -/
structure SettingSpec where
  key : String
  default : Value
  label : String
  category : String
deriving DecidableEq, Inhabited

/-- Replace an instruction that passes the pattern, the first if `occurrence` is 1, by a read of a setting. -/
structure Rule where
  pattern : Pattern
  occurrence : Nat := 1
  setting : String
deriving Inhabited

/-- The rules for one method. -/
structure PlanPatch where
  target : MethodId
  name : String
  rules : List Rule
deriving Inhabited

/-- Settings and patches. -/
structure Plan where
  settings : List SettingSpec := []
  patches : List PlanPatch := []
deriving Inhabited

namespace Plan

/-- The methods that the plan patches. -/
def targets (p : Plan) : List MethodId := p.patches.map PlanPatch.target

/-- The first key that is declared a second time. -/
def redeclared? : (seen : List String) → List SettingSpec → Option String
  | _, [] => none
  | seen, s :: ss => if s.key ∈ seen then some s.key else redeclared? (s.key :: seen) ss

/-- What is wrong with a patch, where `keys` are the declared settings. -/
def patchFault? (keys : List String) (p : PlanPatch) : Option PlanFault :=
  if p.rules.isEmpty then some (.noRules p.name p.target)
  else (p.rules.find? fun r => r.setting ∉ keys).map fun r => .undeclared p.name r.setting

/-- The first thing that is wrong with a plan. -/
def fault? (p : Plan) : Option PlanFault :=
  match redeclared? [] p.settings with
  | some key => some (.declaredTwice key)
  | none => p.patches.findSome? (patchFault? (p.settings.map SettingSpec.key))

/-- Accepts a plan with which nothing is wrong. -/
def validate (p : Plan) : Except PatchError Unit :=
  match p.fault? with
  | some fault => .error (.plan fault)
  | none => .ok ()

end Plan

end Graft
