import Graft.Instruction
import Graft.Violation

/-!
# What can be wrong with a body

`Cause` lists the rules that a body can break, and `Cause.message` words them.
-/

namespace Graft.Typing

/-- The types of the values on the stack, the top first. -/
abbrev Stack := List ValueType

/-- The types of a stack from the bottom to the top. -/
def Stack.text (s : Stack) : String := ValueType.joined s.reverse

/-- A rule that is broken. -/
inductive Cause where
  | emptyBody
  | badOperands (op : Opcode)
  | noArgument (slot count : Nat)
  | noLocal (slot count : Nat)
  | noExternal (row : Nat)
  | noTarget (id : InstrId)
  | fallsOff (start : Nat)
  | underflow (op : Opcode)
  | unexpected (op : Opcode) (expected found : ValueType)
  | notNumeric (op : Opcode) (lhs rhs : ValueType)
  | notComparable (op : Opcode) (lhs rhs : ValueType)
  | notAlike (op : Opcode) (lhs rhs : ValueType)
  | leftOver (rest : Stack)
  | disagreement (first second : Stack)
deriving DecidableEq, Repr

open Text.Numeral in
/-- The wording of a broken rule. -/
def Cause.message : Cause → String
  | emptyBody => "method body is empty"
  | badOperands op => "invalid operands for " ++ op.mnemonic
  | noArgument slot count => "argument " ++ ofNat slot ++ " out of range (" ++ ofNat count ++ " params)"
  | noLocal slot count => "local " ++ ofNat slot ++ " out of range (" ++ ofNat count ++ " locals)"
  | noExternal row => "unresolved external ext" ++ ofNat row
  | noTarget id => "branch target " ++ id.text ++ " is not in the method"
  | fallsOff start => "control falls off the end of the method after block at " ++ ofNat start
  | underflow op => "stack underflow in " ++ op.mnemonic
  | unexpected op expected found =>
    op.mnemonic ++ " expects " ++ expected.keyword ++ ", found " ++ found.keyword
  | notNumeric op lhs rhs =>
    op.mnemonic ++ " needs two operands of the same numeric type, found " ++ lhs.keyword ++ " and " ++ rhs.keyword
  | notComparable op lhs rhs =>
    op.mnemonic ++ " compares two values of the same numeric type, found " ++ lhs.keyword ++ " and " ++ rhs.keyword
  | notAlike op lhs rhs =>
    op.mnemonic ++ " needs operands of the same type, found " ++ lhs.keyword ++ " and " ++ rhs.keyword
  | leftOver rest =>
    ofNat rest.length ++ " value(s) left on the stack at return: [" ++ Stack.text rest ++ "]"
  | disagreement first second =>
    "stack shape differs between incoming paths: [" ++ Stack.text first ++ "] vs [" ++ Stack.text second ++ "]"

/-- A broken rule and the position of the instruction that breaks it, if there is one. -/
structure Finding where
  position : Option Nat
  cause : Cause
deriving DecidableEq, Repr

/-- The report on a finding. -/
def Finding.violation (f : Finding) : Violation := ⟨f.position, f.cause.message⟩

end Graft.Typing
