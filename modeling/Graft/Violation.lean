import Graft.Text.Numeral

/-!
# Violations

The report on one problem of a body, as text.
-/

namespace Graft

/-- A problem of a body, with the position of the instruction that it is about, if there is one. -/
structure Violation where
  position : Option Nat
  message : String
deriving DecidableEq, Repr, Inhabited

/-- The written form of a violation. -/
def Violation.text (v : Violation) : String :=
  match v.position with
  | some p => "at " ++ Text.Numeral.ofNat p ++ ": " ++ v.message
  | none => v.message

end Graft
