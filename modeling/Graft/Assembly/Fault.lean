import Graft.MethodId
import Graft.Opcode

/-!
# What can be wrong with an assembly text
-/

namespace Graft.Assembly

/-- Why a line, or a whole text, of assembly is rejected. -/
inductive Fault where
  | emptyText
  | outsideMethod
  | missingParams
  | openParams
  | badMethodId (text : String)
  | unbracketedTypes
  | unknownType (word : String)
  | unexpectedTail (rest : String)
  | lateLocals
  | badLabelLine
  | duplicateLabel
  | unknownMnemonic (word : String)
  | tooManyOperands
  | trailingLabel (name : String)
  | unwantedOperand (op : Opcode)
  | missingOperand (op : Opcode)
  | badImmediate (token : String) (type : ValueType)
  | badSlot (token : String)
  | badTarget
  | undefinedLabel (name : String)
  | notOneMethod (count : Nat)
deriving DecidableEq, Repr

namespace Fault

/-- The wording of a fault. -/
def message : Fault → String
  | emptyText => "empty assembly"
  | outsideMethod => "instruction outside of a .method block"
  | missingParams => "missing parameter list"
  | openParams => "unterminated parameter list"
  | badMethodId text => "invalid method identifier '" ++ text ++ "', expected Type::name"
  | unbracketedTypes => "type lists are written (t1, t2)"
  | unknownType word => "unknown type: " ++ word
  | unexpectedTail rest => "unexpected '" ++ rest ++ "' after parameter list"
  | lateLocals => ".locals must precede the first instruction"
  | badLabelLine => "labels are written @name:"
  | duplicateLabel => "duplicate label"
  | unknownMnemonic word => "unknown opcode '" ++ word ++ "'"
  | tooManyOperands => "too many operands"
  | trailingLabel name => "label @" ++ name ++ " does not precede an instruction"
  | unwantedOperand op => op.mnemonic ++ " takes no operand"
  | missingOperand op => op.mnemonic ++ " requires an operand"
  | badImmediate token type => "'" ++ token ++ "' is not a valid " ++ type.keyword
  | badSlot token => "'" ++ token ++ "' is not a valid slot"
  | badTarget => "branch targets are written @name"
  | undefinedLabel name => "undefined label @" ++ name
  | notOneMethod count => "expected exactly one method, found " ++ Text.Numeral.ofNat count

end Fault

end Graft.Assembly
