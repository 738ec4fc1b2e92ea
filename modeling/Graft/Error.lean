import Graft.Assembly.Fault
import Graft.Instruction
import Graft.MethodId
import Graft.Violation

/-!
# Errors about methods and their bodies

`Error` lists the causes, and `Error.message` words them.
-/

namespace Graft

/-- Why an operation on a method or its body fails. -/
inductive Error where
  | unknownMethod (id : MethodId)
  | noBody (id : MethodId)
  | rejected (id : MethodId) (violations : List Violation)
  | badAssembly (line : Nat) (fault : Assembly.Fault) (raw : String)
  | unknownOpcode (word : String)
  | unknownType (word : String)
  | badMethodId (text : String)
  | unboundExternal (name : String)
  | badOperands (op : Opcode) (position : Nat)
  | unresolvedLabel (label : Option InstrId) (position : Nat)
  | outOfBounds (position length : Nat)
  | tooManyExternals
  | stale (id : MethodId)
  | tooLarge (field : String) (value : Nat)
  | badArguments (id : MethodId) (expected found : List ValueType)
  | typeMismatch (position : Nat) (expected : String) (found : ValueType)
  | stackUnderflow (position : Nat)
  | divisionByZero (position : Nat)
  | stepLimit (limit : Nat)
deriving DecidableEq, Repr

namespace Error

open Text.Numeral in
/-- The wording of an error. -/
def message : Error → String
  | unknownMethod id => "target method not found: " ++ id.text
  | noBody id => "method " ++ id.text ++ " has no inspectable body"
  | rejected id violations =>
    "verification of " ++ id.text ++ " failed with " ++ ofNat violations.length ++ " violation(s): " ++
      "; ".intercalate (violations.map Violation.text)
  | badAssembly line fault raw =>
    "assembly parse error at line " ++ ofNat line ++ ": " ++ fault.message ++ " ⇒ `" ++ raw ++ "`"
  | unknownOpcode word => "unknown opcode: " ++ word
  | unknownType word => "unknown type: " ++ word
  | badMethodId text => "invalid method identifier '" ++ text ++ "', expected Type::name"
  | unboundExternal name => "external '" ++ name ++ "' cannot be bound from assembly"
  | badOperands op position => "invalid operands for " ++ op.mnemonic ++ " at position " ++ ofNat position
  | unresolvedLabel label position =>
    "unresolved label " ++ (label.map InstrId.text).getD "" ++ " at position " ++ ofNat position
  | outOfBounds position length =>
    "position " ++ ofNat position ++ " out of bounds for stream of length " ++ ofNat length
  | tooManyExternals => "too many external bindings in one method"
  | stale id => "live body of " ++ id.text ++ " changed since it was loaded"
  | tooLarge field value => field ++ " (" ++ ofNat value ++ ") does not fit the byte encoding"
  | badArguments id expected found =>
    "argument mismatch for " ++ id.text ++ ": expected (" ++ ValueType.joined expected ++ "), got (" ++
      ValueType.joined found ++ ")"
  | typeMismatch position expected found =>
    "type mismatch at position " ++ ofNat position ++ ": expected " ++ expected ++ ", found " ++ found.keyword
  | stackUnderflow position => "stack underflow at position " ++ ofNat position
  | divisionByZero position => "division by zero at position " ++ ofNat position
  | stepLimit limit => "step limit of " ++ ofNat limit ++ " exceeded"

end Error

end Graft
